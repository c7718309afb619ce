import Mathlib
import Morgan.Core.Entry
import Morgan.Core.WaterClockProof

/-!
# Entries chain, pack and read back

What `Entry::new` builds verifies from the hash before it (`Entry.new_spec`), and it builds one
whenever its transactions fit in a blob and it does not record them after `u64::MAX - 1` hashes,
where `next_hash` panics (`nextHash_eq_none_iff`).

`num_will_fit` returns zero only when the first element does not fit alone, and otherwise the
length of a prefix that fits (`numWillFit_spec`), for any answers of the size: the search needs no
monotone size.  A run of `split_serializable_chunks` is a `SplitRun`, the input cut into nonempty
chunks that each fit and are converted in turn; it ends when every element fits alone and the
converter succeeds on the chunks (`splitSerializableChunks_isSome`).

`next_entries` then chains entries that verify from the start hash and hold the transactions in
order, and `to_blobs` makes blobs whose data decode back to the entries, as long as every entry
and transaction fits alone.  Its one failure: transactions after `u64::MAX` hashes panic
(`nextEntries_eq_none_of_max`).
-/

namespace Morgan

open Bincode

/-- `next_hash` panics exactly when it records transactions after `u64::MAX - 1` hashes, which
leave only the tick's hash. -/
theorem nextHash_eq_none_iff (startHash : Hash) (numHashes : UInt64)
    (transactions : List Transaction) :
    nextHash startHash numHashes transactions = none ↔
      transactions ≠ [] ∧ numHashes.toNat = 2 ^ 64 - 1 := by
  have hlt := numHashes.toNat_lt
  unfold nextHash
  split
  case isTrue h => simp [h.2]
  case isFalse h =>
    have hk : numHashes.toNat - 1 < (⟨startHash, 0, 2 ^ 64 - 1, 2 ^ 64 - 1⟩ : Poh).remainingHashes := by
      dsimp only
      omega
    simp only [Poh.new_none, Option.bind_eq_bind, Option.bind_some, Poh.hashN_of_lt _ hk]
    cases transactions with
    | nil =>
      simp only [List.isEmpty_nil, if_true, Option.map_eq_none_iff, ne_eq, not_true_eq_false,
        false_and, iff_false]
      exact Option.isSome_iff_ne_none.1 (Poh.tick_isSome_of_unbounded rfl)
    | cons tx txs =>
      simp only [List.isEmpty_cons, Bool.false_eq_true, if_false, Option.map_eq_none_iff,
        Poh.record_eq_none_iff, ne_eq, reduceCtorEq, not_false_eq_true, true_and]
      omega

/-! ## Entries verify -/

theorem Entry.verify_of_nextHash {e : Entry} {startHash : Hash}
    (h : nextHash startHash e.numHashes e.transactions = some e.hash) :
    e.verify startHash = some true := by
  simp [Entry.verify, h]

/-- What `Entry::new` builds: the transactions given, and a hash that `verify` accepts from the
previous hash. -/
theorem Entry.new_spec {prevHash : Hash} {numHashes : UInt64} {transactions : List Transaction}
    {e : Entry} (h : Entry.new prevHash numHashes transactions = some e) :
    e.transactions = transactions ∧ e.verify prevHash = some true := by
  simp only [Entry.new, Option.bind_eq_bind, Option.bind_eq_some_iff] at h
  obtain ⟨size, -, h⟩ := h
  split_ifs at h with hfit hempty hzero
  · cases h
    exact ⟨rfl, Entry.verify_of_nextHash (by simp [nextHash, hempty.2])⟩
  · simp only [Option.pure_def, Option.bind_eq_some_iff,
      Option.some.injEq] at h
    obtain ⟨hash, hhash, rfl⟩ := h
    exact ⟨rfl, Entry.verify_of_nextHash hhash⟩
  · simp only [Option.pure_def, Option.bind_eq_some_iff,
      Option.some.injEq] at h
    obtain ⟨hash, hhash, rfl⟩ := h
    exact ⟨rfl, Entry.verify_of_nextHash hhash⟩

/-- `Entry::new` builds an entry when the transactions fit in a blob and it does not record them
after `u64::MAX - 1` hashes. -/
theorem Entry.new_isSome {prevHash : Hash} {numHashes : UInt64} {transactions : List Transaction}
    {size : Nat} (hsize : Entry.serializedToBlobSize transactions = some size)
    (hfit : size ≤ BLOB_DATA_SIZE) (hnum : numHashes.toNat < 2 ^ 64 - 1) :
    (Entry.new prevHash numHashes transactions).isSome := by
  have hnext : ∀ n : UInt64, n.toNat < 2 ^ 64 - 1 →
      (nextHash prevHash n transactions).isSome := fun n hn => by
    rw [Option.isSome_iff_ne_none, ne_eq, nextHash_eq_none_iff]
    omega
  simp only [Entry.new, hsize, Option.bind_eq_bind, Option.bind_some, if_pos hfit]
  split_ifs
  · rfl
  · obtain ⟨hash, hhash⟩ := Option.isSome_iff_exists.1 (hnext 1 (by decide))
    simp [hhash]
  · obtain ⟨hash, hhash⟩ := Option.isSome_iff_exists.1 (hnext numHashes hnum)
    simp [hhash]

/-- The pairs `EntrySlice::verify` checks, after the first, are those of the slice that follows,
from the first entry's hash. -/
theorem verifyEntries_cons (e : Entry) (es : List Entry) (startHash : Hash) :
    verifyEntries (e :: es) startHash =
      (e.verify startHash).bind fun ok => if ok then verifyEntries es e.hash else some false := by
  cases es with
  | nil => simp [verifyEntries, List.allM]
  | cons e' es =>
    simp only [verifyEntries, List.zip_cons_cons, List.allM]
    cases e.verify startHash with
    | none => rfl
    | some ok => cases ok <;> rfl

/-! ## The search of `num_will_fit` -/

section NumWillFit

variable {fits : Nat → Option Bool}

/-- The invariant of the search: the lower bound is a length, which fits unless it is the first. -/
def Probe.Inv (fits : Nat → Option Bool) (p : Probe) : Prop :=
  1 ≤ p.lower ∧ (p.lower = 1 ∨ fits p.lower = some true)

/-- What the search returns: zero when the first length does not fit, otherwise a length that
fits, within the upper bound. -/
theorem numWillFitLoop_spec {p : Probe} (hinv : p.Inv fits) {k : Nat}
    (h : numWillFitLoop fits p = some k) :
    k ≤ p.upper ∧ (k = 0 ∧ fits 1 = some false ∨ 1 ≤ k ∧ fits k = some true) := by
  fun_induction numWillFitLoop fits p with
  | case1 p hfits => cases h
  | case2 p hfits next hnext =>
    cases h
    exact ⟨p.num_le, .inr ⟨le_trans hinv.1 p.lower_le, hfits⟩⟩
  | case3 p hfits next hnext ih =>
    exact ih ⟨le_trans hinv.1 p.lower_le, .inr hfits⟩ h
  | case4 p hfits hone =>
    cases h
    exact ⟨Nat.zero_le _, .inl ⟨rfl, hone ▸ hfits⟩⟩
  | case5 p hfits hone next hnext =>
    -- a length that does not fit is tried again only when it is the lower bound, which fits
    have hlow : p.lower = p.num := by
      have := p.lower_le
      simp only [next] at hnext
      omega
    rcases hinv.2 with h1 | hlow'
    · omega
    · rw [hlow, hfits] at hlow'
      cases hlow'
  | case6 p hfits hone next hnext ih =>
    obtain ⟨hk, hspec⟩ := ih hinv h
    exact ⟨le_trans hk p.num_le, hspec⟩

/-- The search ends wherever every length has a size. -/
theorem numWillFitLoop_isSome (hfits : ∀ n, (fits n).isSome) (p : Probe) :
    (numWillFitLoop fits p).isSome := by
  fun_induction numWillFitLoop fits p with
  | case1 p hnone => simpa [hnone] using hfits p.num
  | case3 _ _ _ _ ih => exact ih
  | case6 _ _ _ _ _ ih => exact ih
  | _ => rfl

end NumWillFit

section Chunks

variable {T : Type} {maxSize : Nat} {size : List T → Option Nat}

/-- What `num_will_fit` returns: a length of the list, zero only when the list is empty or its
first element does not fit alone, and otherwise the length of a prefix that fits. -/
theorem numWillFit_spec {xs : List T} {k : Nat} (h : numWillFit xs maxSize size = some k) :
    k ≤ xs.length ∧ (k = 0 → xs = [] ∨ ∃ n, size (xs.take 1) = some n ∧ maxSize < n) ∧
      (k ≠ 0 → ∃ n, size (xs.take k) = some n ∧ n ≤ maxSize) := by
  unfold numWillFit at h
  split at h
  case isTrue hlen =>
    cases h
    exact ⟨Nat.zero_le _, fun _ => .inl (List.eq_nil_of_length_eq_zero hlen), fun h => absurd rfl h⟩
  case isFalse hlen =>
    obtain ⟨hk, hspec⟩ := numWillFitLoop_spec ⟨le_rfl, .inl rfl⟩ h
    refine ⟨hk, fun hk0 => .inr ?_, fun hk0 => ?_⟩
    · obtain ⟨-, hone⟩ := hspec.resolve_right (by omega)
      obtain ⟨n, hn, hfit⟩ := Option.map_eq_some_iff.1 hone
      exact ⟨n, hn, by simpa using hfit⟩
    · obtain ⟨-, hfits⟩ := hspec.resolve_left (by omega)
      obtain ⟨n, hn, hfit⟩ := Option.map_eq_some_iff.1 hfits
      exact ⟨n, hn, by simpa using hfit⟩

/-- `num_will_fit` ends wherever every prefix has a size. -/
theorem numWillFit_isSome {xs : List T} (hsize : ∀ n, (size (xs.take n)).isSome) :
    (numWillFit xs maxSize size).isSome := by
  unfold numWillFit
  split
  · rfl
  · exact numWillFitLoop_isSome (fun n => by simpa using hsize n) _

/-- When the first element fits alone, `num_will_fit` takes at least it. -/
theorem numWillFit_ne_zero {x : T} {xs : List T} {k n : Nat}
    (h : numWillFit (x :: xs) maxSize size = some k) (hone : size [x] = some n)
    (hfit : n ≤ maxSize) : k ≠ 0 := by
  intro hk
  rcases (numWillFit_spec h).2.1 hk with hnil | ⟨n', hn', hbig⟩
  · cases hnil
  · rw [List.take_succ_cons, List.take_zero, hone, Option.some.injEq] at hn'
    omega

section Split

variable {R σ : Type} {converter : σ → List T → Option (R × σ)}

/-- A run of `split_serializable_chunks`: the input cut into nonempty chunks that each fit,
converted one after another from the state. -/
inductive SplitRun (maxSize : Nat) (size : List T → Option Nat)
    (converter : σ → List T → Option (R × σ)) : List T → σ → List R → σ → Prop
  | nil (s : σ) : SplitRun maxSize size converter [] s [] s
  | chunk {c rest : List T} {s s' s'' : σ} {r : R} {rs : List R} {n : Nat} (hne : c ≠ [])
      (hsize : size c = some n) (hfit : n ≤ maxSize) (hconv : converter s c = some (r, s'))
      (tail : SplitRun maxSize size converter rest s' rs s'') :
      SplitRun maxSize size converter (c ++ rest) s (r :: rs) s''

/-- Every result of `split_serializable_chunks` is a run of it. -/
theorem splitSerializableChunks_run (xs : List T) (s : σ) :
    ∀ rs s', splitSerializableChunks maxSize size converter xs s = some (rs, s') →
      SplitRun maxSize size converter xs s rs s' := by
  fun_induction splitSerializableChunks maxSize size converter xs s with
  | case1 s =>
    intro rs s' h
    cases h
    exact .nil s
  | case2 s x xs ih =>
    intro rs s' h
    simp only [Option.bind_eq_bind, Option.bind_eq_some_iff] at h
    obtain ⟨k, hk, h⟩ := h
    split_ifs at h with hzero
    simp only [Option.bind_eq_some_iff, Option.pure_def, Option.some.injEq, Prod.mk.injEq] at h
    obtain ⟨⟨r, s₁⟩, hconv, ⟨rs', s₂⟩, hrest, rfl, rfl⟩ := h
    obtain ⟨n, hn, hfit⟩ := (numWillFit_spec hk).2.2 hzero
    rw [← List.take_append_drop k (x :: xs)]
    exact .chunk (by simpa using hzero) hn hfit hconv (ih k hzero s₁ rs' s₂ hrest)

/-- `split_serializable_chunks` ends, with no panic, when every chunk of the input has a size,
every element fits alone, and the converter succeeds on every chunk that fits from a state of the
invariant, keeping it. -/
theorem splitSerializableChunks_isSome (I : σ → Prop) (xs : List T) (s : σ)
    (hsize : ∀ c, c ⊆ xs → (size c).isSome)
    (hone : ∀ x ∈ xs, ∃ n, size [x] = some n ∧ n ≤ maxSize)
    (hconv : ∀ s c n, I s → c ≠ [] → c ⊆ xs → size c = some n → n ≤ maxSize →
      ∃ r s', converter s c = some (r, s') ∧ I s')
    (hs : I s) : (splitSerializableChunks maxSize size converter xs s).isSome := by
  fun_induction splitSerializableChunks maxSize size converter xs s with
  | case1 s => rfl
  | case2 s x xs ih =>
    obtain ⟨k, hk⟩ := Option.isSome_iff_exists.1
      (numWillFit_isSome fun _ => hsize _ (List.take_subset _ _))
    obtain ⟨n₁, hn₁, hfit₁⟩ := hone x List.mem_cons_self
    have hzero := numWillFit_ne_zero hk hn₁ hfit₁
    obtain ⟨n, hn, hfit⟩ := (numWillFit_spec hk).2.2 hzero
    obtain ⟨r, s₁, hconv₁, hs₁⟩ :=
      hconv s _ n hs (by simpa using hzero) (List.take_subset _ _) hn hfit
    -- the rest of the input is a part of it: every hypothesis carries over
    have hdrop : (x :: xs).drop k ⊆ x :: xs := List.drop_subset _ _
    obtain ⟨⟨rs, s₂⟩, hrest⟩ := Option.isSome_iff_exists.1 <|
      ih k hzero s₁ (fun c hc => hsize c (List.Subset.trans hc hdrop)) (fun y hy => hone y (hdrop hy))
        (fun s c n hs hne hc => hconv s c n hs hne (List.Subset.trans hc hdrop)) hs₁
    simp [hk, hzero, hconv₁, hrest]

end Split

end Chunks

/-! ## Blobs read back what was written -/

theorem BLOB_SIZE_eq : BLOB_SIZE = 65408 := rfl

theorem SIZE_RANGE_START_eq : SIZE_RANGE_START = 93 := rfl

theorem BLOB_HEADER_SIZE_eq : BLOB_HEADER_SIZE = 112 := rfl

theorem BLOB_DATA_SIZE_eq : BLOB_DATA_SIZE = 65184 := rfl

namespace Packet

variable {n : Nat}

theorem getElem_toList_writeAt (data : Vector UInt8 n) (offset : Nat) (bytes : List UInt8) {i : Nat}
    (hi : i < (writeAt data offset bytes).toList.length) :
    (writeAt data offset bytes).toList[i] =
      if offset ≤ i ∧ i < offset + bytes.length then bytes.getD (i - offset) 0
      else data.toList.get ⟨i, by simpa using hi⟩ := by
  simp [writeAt, Vector.get_eq_getElem]

/-- The bytes written read back. -/
theorem take_drop_writeAt (data : Vector UInt8 n) (offset : Nat) (bytes : List UInt8)
    (h : offset + bytes.length ≤ n) :
    ((writeAt data offset bytes).toList.drop offset).take bytes.length = bytes := by
  apply List.ext_getElem
  · simp only [List.length_take, List.length_drop, Vector.length_toList]
    omega
  · intro i hi _
    simp only [List.getElem_take, List.getElem_drop, getElem_toList_writeAt]
    rw [if_pos (by simp at hi; omega)]
    simp [List.getD_eq_getElem?_getD, List.getElem?_eq_getElem (by simp at hi; omega)]

/-- Bytes past those written are unchanged. -/
theorem drop_writeAt_of_le (data : Vector UInt8 n) (offset : Nat) (bytes : List UInt8) {m : Nat}
    (h : offset + bytes.length ≤ m) :
    (writeAt data offset bytes).toList.drop m = data.toList.drop m := by
  apply List.ext_getElem
  · simp
  · intro i _ _
    simp only [List.getElem_drop, getElem_toList_writeAt]
    rw [if_neg (by omega), List.get_eq_getElem]

namespace Blob

theorem length_body (b : Blob) : b.body.length = BLOB_SIZE - BLOB_HEADER_SIZE := by
  simp [body]

/-- The size written over `SIZE_RANGE` reads back, as a `u64`. -/
theorem dataSize_setDataSize (b : Blob) {size : Nat} (h : size < 2 ^ 64) :
    (b.setDataSize size).dataSize = size := by
  have hread := take_drop_writeAt b.data SIZE_RANGE_START (toLittleEndian 8 size)
    (by simp [SIZE_RANGE_START_eq, BLOB_SIZE_eq])
  rw [length_toLittleEndian] at hread
  rw [dataSize, setDataSize, hread, ofLittleEndian_toLittleEndian]
  exact Nat.mod_eq_of_lt (by simpa using h)

/-- Setting the size leaves the bytes after the header as they were. -/
theorem body_setSize (b : Blob) (size : Nat) : (b.setSize size).body = b.body :=
  drop_writeAt_of_le b.data SIZE_RANGE_START _ (by simp [SIZE_RANGE_START_eq, BLOB_HEADER_SIZE_eq])

/-- The size set reads back, when it fits a `u64` with the header. -/
theorem size_setSize (b : Blob) {size : Nat} (h : size + BLOB_HEADER_SIZE < 2 ^ 64) :
    (b.setSize size).size = size := by
  have hdata : (b.setSize size).dataSize = size + BLOB_HEADER_SIZE :=
    dataSize_setDataSize b h
  unfold Blob.size
  rw [hdata]
  split_ifs with hbig
  · omega
  · -- an empty blob is the one case where the header alone is not counted as data
    have : ¬ BLOB_HEADER_SIZE < size + BLOB_HEADER_SIZE := fun hlt => hbig ⟨hlt, rfl⟩
    omega

/-- A blob made from an encoding that fits holds it after the header, its size the encoding's
length. -/
theorem fromSerializable_spec {encoding : List UInt8}
    (h : encoding.length ≤ BLOB_SIZE - BLOB_HEADER_SIZE) :
    ∃ b, fromSerializable encoding = some b ∧ b.size = encoding.length ∧
      b.body.take b.size = encoding := by
  rw [BLOB_SIZE_eq, BLOB_HEADER_SIZE_eq] at h
  have hsize : encoding.length + BLOB_HEADER_SIZE < 2 ^ 64 := by
    rw [BLOB_HEADER_SIZE_eq]
    omega
  refine ⟨_, if_pos (by rw [BLOB_SIZE_eq, BLOB_HEADER_SIZE_eq]; omega), size_setSize _ hsize, ?_⟩
  rw [size_setSize _ hsize, body_setSize]
  exact take_drop_writeAt _ _ _ (by rw [BLOB_SIZE_eq, BLOB_HEADER_SIZE_eq]; omega)

end Blob

end Packet

/-! ## Entries encode and read back -/

theorem Transaction.serialize_ne_nil {tx : Transaction} {bytes : List UInt8}
    (h : tx.serialize = some bytes) : bytes ≠ [] := by
  simp only [Transaction.serialize, Message.serialize, Option.bind_eq_bind,
    Option.bind_eq_some_iff, Option.pure_def, Option.some.injEq] at h
  obtain ⟨signatures, -, message, ⟨accountKeys, -, instructions, -, rfl⟩, rfl⟩ := h
  simp [MessageHeader.serialize]

theorem Entry.serialize_ne_nil {e : Entry} {bytes : List UInt8} (h : e.serialize = some bytes) :
    bytes ≠ [] := by
  simp only [Entry.serialize, Option.bind_eq_bind, Option.bind_eq_some_iff, Option.pure_def,
    Option.some.injEq] at h
  obtain ⟨transactions, -, rfl⟩ := h
  simp [encodeU64, toLittleEndian]

/-- An entry's encoding reads back when it is shorter than `2 ^ 64` bytes: then so is the vector of
its transactions, whose length the encoding holds as a `u64`. -/
theorem Entry.deserialize_run {e : Entry} {bytes : List UInt8} (h : e.serialize = some bytes)
    (hlen : bytes.length < 2 ^ 64) (rest : List UInt8) :
    Entry.deserialize.run (bytes ++ rest) = some (e, rest) := by
  simp only [Entry.serialize, Option.bind_eq_bind, Option.bind_eq_some_iff, Option.pure_def,
    Option.some.injEq] at h
  obtain ⟨transactions, htxs, rfl⟩ := h
  have hcount : e.transactions.length < 2 ^ 64 := by
    have := length_le_of_encodeVecM (fun _ _ => Transaction.serialize_ne_nil) htxs
    simp only [List.length_append] at hlen
    omega
  simp only [List.append_assoc]
  rw [Entry.deserialize, ReadsBack.u64.run_bind rfl, readsBack_hash.run_bind rfl, StateT.run_bind,
    ReadsBack.vec readsBack_transaction hcount htxs rest]
  rfl

/-- An encoding of entries shorter than `2 ^ 64` bytes reads back. -/
theorem entries_run {es : List Entry} {bytes : List UInt8}
    (h : encodeVecM Entry.serialize es = some bytes) (hlen : bytes.length < 2 ^ 64)
    (rest : List UInt8) : (vec Entry.deserialize).run (bytes ++ rest) = some (es, rest) := by
  have hcount : es.length < 2 ^ 64 :=
    lt_of_le_of_lt (length_le_of_encodeVecM (fun _ _ => Entry.serialize_ne_nil) h) hlen
  refine vec_run (fun e he b hb rest => ?_) hcount h rest
  -- each entry's encoding is a part of the whole
  obtain ⟨b', hb', hle⟩ := length_le_of_mem_encodeVecM h he
  rw [hb, Option.some.injEq] at hb'
  subst hb'
  exact Entry.deserialize_run hb (lt_of_le_of_lt hle hlen) rest

theorem Transaction.serialize_isSome_of_serializedToBlobSize {tx : Transaction} {n : Nat}
    (h : Entry.serializedToBlobSize [tx] = some n) : tx.serialize.isSome := by
  simp only [Entry.serializedToBlobSize, List.mapM_cons, List.mapM_nil, Option.bind_eq_bind,
    Option.bind_eq_some_iff, Option.map_eq_some_iff] at h
  obtain ⟨sizes, ⟨size, ⟨bytes, hbytes, -⟩, -⟩, -⟩ := h
  simp [hbytes]

theorem Entry.serialize_isSome_of_size {e : Entry} {n : Nat}
    (h : entriesSerializedSize [e] = some n) : e.serialize.isSome := by
  obtain ⟨bytes, hbytes, -⟩ := Option.map_eq_some_iff.1 h
  have hsome := isSome_encodeVecM.1 (Option.isSome_iff_exists.2 ⟨bytes, hbytes⟩)
  exact hsome e List.mem_cons_self

/-- Transactions that each serialize have a size in a blob. -/
theorem Entry.serializedToBlobSize_isSome {txs : List Transaction}
    (h : ∀ tx ∈ txs, tx.serialize.isSome) : (Entry.serializedToBlobSize txs).isSome := by
  have hsizes : (txs.mapM fun tx : Transaction => tx.serialize.map List.length).isSome := by
    rw [Option.isSome_iff_ne_none, ne_eq, mapM_eq_none_iff]
    rintro ⟨tx, htx, hnone⟩
    have hsome := h tx htx
    rw [Option.map_eq_none_iff] at hnone
    rw [hnone] at hsome
    cases hsome
  obtain ⟨sizes, hs⟩ := Option.isSome_iff_exists.1 hsizes
  have hempty : entriesSerializedSize [⟨0, default, []⟩] = some 56 := by decide
  simp [Entry.serializedToBlobSize, hs, hempty]

/-! ## `next_entries` chains the transactions -/

theorem Entry.newMut_eq_some {start : Hash × UInt64} {txs : List Transaction} {e : Entry}
    {st : Hash × UInt64} (h : Entry.newMut start txs = some (e, st)) :
    Entry.new start.1 start.2 txs = some e ∧ st = (e.hash, 0) := by
  simp only [Entry.newMut, Option.bind_eq_bind, Option.bind_eq_some_iff] at h
  obtain ⟨size, -, h⟩ := h
  split_ifs at h
  simp only [Option.bind_eq_some_iff, Option.pure_def, Option.some.injEq, Prod.mk.injEq] at h
  obtain ⟨e', he', rfl, rfl⟩ := h
  exact ⟨he', rfl⟩

theorem Entry.newMut_isSome {start : Hash × UInt64} {txs : List Transaction} {n : Nat}
    (hsize : Entry.serializedToBlobSize txs = some n) (hfit : n ≤ BLOB_DATA_SIZE)
    (hnum : start.2.toNat < 2 ^ 64 - 1) : ∃ e, Entry.newMut start txs = some (e, (e.hash, 0)) := by
  have hnew : (Entry.new start.1 start.2 txs).isSome := Entry.new_isSome hsize hfit hnum
  obtain ⟨e, he⟩ := Option.isSome_iff_exists.1 hnew
  exact ⟨e, by simp [Entry.newMut, hsize, hfit, he]⟩

/-- A run of `next_entries_mut` chains its entries from the start hash, and they hold the
transactions in order. -/
theorem SplitRun.nextEntries_chain {txs : List Transaction} {st st' : Hash × UInt64}
    {es : List Entry}
    (h : SplitRun BLOB_DATA_SIZE Entry.serializedToBlobSize Entry.newMut txs st es st') :
    verifyEntries es st.1 = some true ∧ es.flatMap Entry.transactions = txs := by
  induction h with
  | nil s => exact ⟨rfl, rfl⟩
  | @chunk c rest s s' s'' e es n hne hsize hfit hconv tail ih =>
    obtain ⟨hnew, rfl⟩ := Entry.newMut_eq_some hconv
    obtain ⟨htxs, hverify⟩ := Entry.new_spec hnew
    refine ⟨?_, ?_⟩
    · rw [verifyEntries_cons, hverify]
      exact ih.1
    · rw [List.flatMap_cons, htxs, ih.2]

/-- With fewer than `u64::MAX` hashes to start, `next_entries` ends on transactions that each fit
alone in an entry, with entries that verify from the start hash and hold the transactions. -/
theorem nextEntries_spec (startHash : Hash) (numHashes : UInt64) (txs : List Transaction)
    (hnum : numHashes.toNat < 2 ^ 64 - 1)
    (hfit : ∀ tx ∈ txs, ∃ n, Entry.serializedToBlobSize [tx] = some n ∧ n ≤ BLOB_DATA_SIZE) :
    ∃ es, nextEntries startHash numHashes txs = some es ∧
      verifyEntries es startHash = some true ∧ es.flatMap Entry.transactions = txs := by
  have hser : ∀ tx ∈ txs, tx.serialize.isSome := fun tx htx => by
    obtain ⟨n, hn, -⟩ := hfit tx htx
    exact Transaction.serialize_isSome_of_serializedToBlobSize hn
  -- the count of hashes is below `u64::MAX` at the start, and zero after each entry
  obtain ⟨⟨es, st'⟩, hrun⟩ := Option.isSome_iff_exists.1 <|
    splitSerializableChunks_isSome (fun st : Hash × UInt64 => st.2.toNat < 2 ^ 64 - 1) txs
      (startHash, numHashes)
      (fun c hc => Entry.serializedToBlobSize_isSome fun tx htx => hser tx (hc htx)) hfit
      (fun st c n hst _ _ hsize hle => by
        obtain ⟨e, he⟩ := Entry.newMut_isSome hsize hle hst
        exact ⟨e, (e.hash, 0), he, by simp⟩)
      hnum
  obtain ⟨hverify, htxs⟩ := (splitSerializableChunks_run txs _ es st' hrun).nextEntries_chain
  exact ⟨es, by simp [nextEntries, nextEntriesMut, hrun], hverify, htxs⟩

/-! ## `to_blobs` packs entries that read back -/

/-- A chunk of entries that fits in a blob makes one whose data, up to its size, is their
encoding. -/
theorem Packet.Blob.fromEntries_spec {entries : List Entry} {n : Nat}
    (hsize : entriesSerializedSize entries = some n) (hfit : n ≤ BLOB_DATA_SIZE) :
    ∃ bytes b, encodeVecM Entry.serialize entries = some bytes ∧
      Packet.Blob.fromEntries entries = some b ∧ b.size = n ∧ b.body.take b.size = bytes := by
  obtain ⟨bytes, hbytes, rfl⟩ := Option.map_eq_some_iff.1 hsize
  have hfits : bytes.length ≤ BLOB_SIZE - BLOB_HEADER_SIZE := by
    rw [BLOB_DATA_SIZE_eq] at hfit
    rw [BLOB_SIZE_eq, BLOB_HEADER_SIZE_eq]
    omega
  obtain ⟨b, hb, hbsize, hbody⟩ := Packet.Blob.fromSerializable_spec hfits
  exact ⟨bytes, b, hbytes, by simp [Packet.Blob.fromEntries, hbytes, hb], hbsize, hbody⟩

/-- A blob made from a chunk of entries gives them back to `reconstruct_entries_from_blobs`. -/
theorem appendBlobEntries_fromEntries {entries : List Entry} {n : Nat} {b : Packet.Blob}
    (hsize : entriesSerializedSize entries = some n) (hfit : n ≤ BLOB_DATA_SIZE)
    (hb : Packet.Blob.fromEntries entries = some b) (acc : List Entry × Nat) :
    appendBlobEntries acc b = some (acc.1 ++ entries, acc.2 + entries.countP Entry.isTick) := by
  obtain ⟨bytes, b', hbytes, hb', hbsize, hbody⟩ := Packet.Blob.fromEntries_spec hsize hfit
  rw [hb, Option.some.injEq] at hb'
  subst hb'
  have hlen : bytes.length = n := by
    obtain ⟨bytes', hbytes', hn⟩ := Option.map_eq_some_iff.1 hsize
    rw [hbytes, Option.some.injEq] at hbytes'
    rw [hbytes', hn]
  have hfitsBody : b.size ≤ b.body.length := by
    rw [hbsize, Packet.Blob.length_body, BLOB_SIZE_eq, BLOB_HEADER_SIZE_eq]
    rw [BLOB_DATA_SIZE_eq] at hfit
    omega
  have hdecode : deserialize (vec Entry.deserialize) (b.body.take b.size) = some entries := by
    rw [hbody]
    apply @deserialize_of_run _ _ _ [] _
    rw [← entries_run hbytes (by rw [hlen, BLOB_DATA_SIZE_eq] at *; omega) [], List.append_nil]
  simp [appendBlobEntries, hfitsBody, hdecode]

/-- The blobs of a run of `to_blobs` each hold at most `BLOB_DATA_SIZE` bytes of data, and give
back the entries, in order. -/
theorem SplitRun.toBlobs_readBack {es : List Entry} {s s' : Unit} {blobs : List Packet.Blob}
    (h : SplitRun BLOB_DATA_SIZE entriesSerializedSize
      (fun (_ : Unit) chunk => (Packet.Blob.fromEntries chunk).map (·, ())) es s blobs s') :
    (∀ b ∈ blobs, b.size ≤ BLOB_DATA_SIZE) ∧ ∀ acc, blobs.foldlM appendBlobEntries acc =
      some (acc.1 ++ es, acc.2 + es.countP Entry.isTick) := by
  induction h with
  | nil s => exact ⟨by simp, fun acc => by simp⟩
  | @chunk c rest s s₁ s₂ b bs n hne hsize hfit hconv tail ih =>
    obtain ⟨b', hb', hpair⟩ := Option.map_eq_some_iff.1 hconv
    rw [Prod.mk.injEq] at hpair
    obtain ⟨rfl, -⟩ := hpair
    obtain ⟨bytes, b₀, -, hb₀, hbsize, -⟩ := Packet.Blob.fromEntries_spec hsize hfit
    rw [hb₀, Option.some.injEq] at hb'
    subst hb'
    refine ⟨fun x hx => ?_, fun acc => ?_⟩
    · rcases List.mem_cons.1 hx with rfl | hx
      · rw [hbsize]
        exact hfit
      · exact ih.1 x hx
    · rw [List.foldlM_cons, appendBlobEntries_fromEntries hsize hfit hb₀]
      exact (ih.2 _).trans (by simp [List.countP_append, Nat.add_assoc])

/-- `to_blobs` ends on entries that each fit alone in a blob, with blobs that hold at most
`BLOB_DATA_SIZE` bytes of data and that `reconstruct_entries_from_blobs` reads back. -/
theorem toBlobs_spec (es : List Entry)
    (hfit : ∀ e ∈ es, ∃ n, entriesSerializedSize [e] = some n ∧ n ≤ BLOB_DATA_SIZE) :
    ∃ blobs, toBlobs es = some blobs ∧ (∀ b ∈ blobs, b.size ≤ BLOB_DATA_SIZE) ∧
      reconstructEntriesFromBlobs blobs = some (es, es.countP Entry.isTick) := by
  have hser : ∀ e ∈ es, e.serialize.isSome := fun e he => by
    obtain ⟨n, hn, -⟩ := hfit e he
    exact Entry.serialize_isSome_of_size hn
  have hsome : (splitSerializableChunks BLOB_DATA_SIZE entriesSerializedSize
      (fun (_ : Unit) chunk => (Packet.Blob.fromEntries chunk).map (·, ())) es ()).isSome :=
    splitSerializableChunks_isSome (fun _ : Unit => True) es ()
      (fun c hc => by
        obtain ⟨bytes, hbytes⟩ := Option.isSome_iff_exists.1
          (isSome_encodeVecM.2 fun e he => hser e (hc he))
        rw [entriesSerializedSize, hbytes]
        rfl)
      hfit
      (fun _ c n _ _ _ hsize hle => by
        obtain ⟨bytes, b, -, hb, -⟩ := Packet.Blob.fromEntries_spec hsize hle
        exact ⟨b, (), by simp [hb], trivial⟩)
      trivial
  obtain ⟨⟨blobs, u⟩, hrun⟩ := Option.isSome_iff_exists.1 hsome
  obtain ⟨hsizes, hread⟩ := (splitSerializableChunks_run es () blobs u hrun).toBlobs_readBack
  refine ⟨blobs, by simp [toBlobs, hrun], hsizes, ?_⟩
  rw [reconstructEntriesFromBlobs]
  simpa using hread ([], 0)

/-! ## Production, packing and replay -/

theorem Entry.new_eq_none_of_max {prevHash : Hash} {numHashes : UInt64} {txs : List Transaction}
    (hmax : numHashes.toNat = 2 ^ 64 - 1) (hne : txs ≠ []) :
    Entry.new prevHash numHashes txs = none := by
  have hnext : nextHash prevHash numHashes txs = none := (nextHash_eq_none_iff _ _ _).2 ⟨hne, hmax⟩
  have hzero : numHashes ≠ 0 := by
    rintro rfl
    simp at hmax
  cases hs : Entry.serializedToBlobSize txs with
  | none => simp [Entry.new, hs]
  | some size => simp [Entry.new, hs, hnext, hzero]

theorem Entry.newMut_eq_none_of_new {start : Hash × UInt64} {txs : List Transaction}
    (h : Entry.new start.1 start.2 txs = none) : Entry.newMut start txs = none := by
  cases hs : Entry.serializedToBlobSize txs with
  | none => simp [Entry.newMut, hs]
  | some size => simp [Entry.newMut, hs, h]

/-- Transactions after `u64::MAX` hashes make `next_entries` panic: its first entry records them
with only the tick's hash left, whatever the chunk. -/
theorem nextEntries_eq_none_of_max (startHash : Hash) {numHashes : UInt64}
    (hmax : numHashes.toNat = 2 ^ 64 - 1) {txs : List Transaction} (hne : txs ≠ []) :
    nextEntries startHash numHashes txs = none := by
  obtain ⟨tx, txs, rfl⟩ := List.exists_cons_of_ne_nil hne
  have hfirst : splitSerializableChunks BLOB_DATA_SIZE Entry.serializedToBlobSize Entry.newMut
      (tx :: txs) (startHash, numHashes) = none := by
    rw [splitSerializableChunks]
    cases hk : numWillFit (tx :: txs) BLOB_DATA_SIZE Entry.serializedToBlobSize with
    | none => rfl
    | some k =>
      by_cases hzero : k = 0
      · simp [hzero]
      · have hnew : Entry.newMut (startHash, numHashes) ((tx :: txs).take k) = none :=
          Entry.newMut_eq_none_of_new (Entry.new_eq_none_of_max hmax (by simpa using hzero))
        simp [hzero, hnew]
  simp [nextEntries, nextEntriesMut, hfirst]

end Morgan
