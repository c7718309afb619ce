import Mathlib
import Morgan.Interface.Account
import Morgan.Interface.Transaction

/-!
# Append vectors

`append_vec.rs`: an `AppendVec` is a memory-mapped file to which accounts are appended, each as
three fields (its `StorageMeta`, its `AccountBalance` and its data), each field at the next multiple
of eight bytes (`align_up!`).  `current_len` marks how far the file is written and bounds every
read; `reset` sets it back to zero and leaves the bytes.

A write finds the end of a record by aligning and adding the three sizes, and a read recomputes
each next offset from the end of the field it read.  The two agree (`getAccount_of_recordAt`).  So,
from a reset, every offset a sequence of `append_accounts` calls returns reads back its record,
`accounts(0)` lists exactly the records appended, in order, and a call that stops at a record that
does not fit leaves the earlier ones as they were (`append_vec_read_back`).  A record's data is
`data_len` bytes copied from the account's buffer; when `data_len` is more than the buffer holds,
the copy reads past it, and the record holds bytes the account never had
(`append_vec_reads_past_account_data`).

The mapped memory is a function from offsets to bytes, `usize` arithmetic is unbounded here, and
`align_up!` is its arithmetic form.  A struct read through a pointer is its fields' bytes in
declaration order: the compiler's layout has the same sizes, and the offsets depend on nothing else.
-/

namespace Morgan

open Bincode

/-- `align_up!(addr, align)`, that is `(addr + (align - 1)) & !(align - 1)` for a power of two
`align`: the least multiple of `align` at or above `addr`. -/
def alignUp (addr align : Nat) : Nat := (addr + (align - 1)) / align * align

/-- `mem::size_of::<u64>()`, the alignment of every field. -/
def sizeOfU64 : Nat := 8

theorem le_alignUp (x : Nat) : x ≤ alignUp x sizeOfU64 := by
  unfold alignUp sizeOfU64
  omega

theorem alignUp_lt (x : Nat) : alignUp x sizeOfU64 < x + sizeOfU64 := by
  unfold alignUp sizeOfU64
  omega

theorem alignUp_zero : alignUp 0 sizeOfU64 = 0 := rfl

/-! ## Memory -/

/-- `len` bytes of memory from `offset`. -/
def readBytes (map : Nat → UInt8) (offset len : Nat) : List UInt8 :=
  (List.range len).map fun i => map (offset + i)

/-- `std::ptr::copy` of `len` bytes from `src` to `pos`. -/
def copyBytes (map : Nat → UInt8) (pos len : Nat) (src : Nat → UInt8) : Nat → UInt8 :=
  fun i => if pos ≤ i ∧ i < pos + len then src (i - pos) else map i

/-- A pointer to the bytes of `bs`. -/
def ptrOf (bs : List UInt8) : Nat → UInt8 := fun i => bs.getD i 0

/-- `account.data.as_ptr()`: the account's data, then what memory holds past its buffer. -/
def dataPtr (data : List UInt8) (beyond : Nat → UInt8) : Nat → UInt8 :=
  fun i => data.getD i (beyond (i - data.length))

@[simp] theorem length_readBytes (map : Nat → UInt8) (offset len : Nat) :
    (readBytes map offset len).length = len := by
  simp [readBytes]

theorem readBytes_congr {map map' : Nat → UInt8} {offset len : Nat}
    (h : ∀ i, offset ≤ i → i < offset + len → map i = map' i) :
    readBytes map offset len = readBytes map' offset len := by
  unfold readBytes
  refine List.map_congr_left fun i hi => h _ (Nat.le_add_right _ _) ?_
  have := List.mem_range.1 hi
  omega

theorem readBytes_copyBytes_self (map : Nat → UInt8) (pos len : Nat) (src : Nat → UInt8) :
    readBytes (copyBytes map pos len src) pos len = (List.range len).map src := by
  unfold readBytes copyBytes
  refine List.map_congr_left fun i hi => ?_
  have := List.mem_range.1 hi
  rw [if_pos ⟨Nat.le_add_right _ _, by omega⟩, Nat.add_sub_cancel_left]

/-- A copy leaves the bytes below it. -/
theorem copyBytes_of_lt {map : Nat → UInt8} {pos len : Nat} {src : Nat → UInt8} {i : Nat}
    (h : i < pos) : copyBytes map pos len src i = map i := by
  unfold copyBytes
  rw [if_neg (by omega)]

theorem readBytes_copyBytes_of_le {map : Nat → UInt8} {pos len : Nat} {src : Nat → UInt8}
    {offset n : Nat} (h : offset + n ≤ pos) :
    readBytes (copyBytes map pos len src) offset n = readBytes map offset n :=
  readBytes_congr fun _ _ hi => copyBytes_of_lt (by omega)

theorem range_map_ptrOf (bs : List UInt8) : (List.range bs.length).map (ptrOf bs) = bs := by
  apply List.ext_getElem (by simp)
  intro i h₁ h₂
  simp [ptrOf, List.getD_eq_getElem?_getD, List.getElem?_eq_getElem h₂]

/-- Within the buffer, the data pointer reads the data. -/
theorem range_map_dataPtr {data : List UInt8} {n : Nat} (h : n ≤ data.length)
    (beyond : Nat → UInt8) : (List.range n).map (dataPtr data beyond) = data.take n := by
  apply List.ext_getElem (by simp; omega)
  intro i h₁ h₂
  simp only [List.length_map, List.length_range] at h₁
  simp [dataPtr, List.getD_eq_getElem?_getD, List.getElem?_eq_getElem (show i < data.length by omega)]

/-! ## Records -/

/-- `StorageMeta`. -/
structure StorageMeta where
  writeVersion : UInt64
  pubkey : Pubkey
  dataLen : UInt64
  deriving DecidableEq, Repr

/-- `AccountBalance`. -/
structure AccountBalance where
  difs : UInt64
  owner : Pubkey
  executable : Bool
  reputations : UInt64
  deriving DecidableEq, Repr

/-- `mem::size_of::<StorageMeta>()`. -/
def sizeOfStorageMeta : Nat := 48

/-- `mem::size_of::<AccountBalance>()`. -/
def sizeOfAccountBalance : Nat := 56

/-- A `StorageMeta` in memory. -/
def StorageMeta.toBytes (m : StorageMeta) : List UInt8 :=
  encodeU64 m.writeVersion ++ m.pubkey.bytes.toList ++ encodeU64 m.dataLen

/-- A `StorageMeta` read through a pointer. -/
def StorageMeta.ofBytes : Decoder StorageMeta := do
  let writeVersion ← u64
  let pubkey ← Pubkey.deserialize
  let dataLen ← u64
  pure ⟨writeVersion, pubkey, dataLen⟩

/-- An `AccountBalance` in memory: seven bytes of padding after `executable` align
`reputations`. -/
def AccountBalance.toBytes (b : AccountBalance) : List UInt8 :=
  encodeU64 b.difs ++ b.owner.bytes.toList ++ [if b.executable then 1 else 0] ++
    List.replicate 7 0 ++ encodeU64 b.reputations

/-- An `AccountBalance` read through a pointer. -/
def AccountBalance.ofBytes : Decoder AccountBalance := do
  let difs ← u64
  let owner ← Pubkey.deserialize
  let executable ← byte
  let _ ← bytes 7
  let reputations ← u64
  pure ⟨difs, owner, executable != 0, reputations⟩

@[simp] theorem StorageMeta.length_toBytes (m : StorageMeta) :
    m.toBytes.length = sizeOfStorageMeta := by
  simp [StorageMeta.toBytes, encodeU64, sizeOfStorageMeta]

@[simp] theorem AccountBalance.length_toBytes (b : AccountBalance) :
    b.toBytes.length = sizeOfAccountBalance := by
  simp [AccountBalance.toBytes, encodeU64, sizeOfAccountBalance]

theorem StorageMeta.readsBack : ReadsBack StorageMeta.ofBytes fun m => some m.toBytes := by
  intro m bytes h rest
  cases h
  simp only [StorageMeta.toBytes, List.append_assoc]
  rw [StorageMeta.ofBytes, ReadsBack.u64.run_bind rfl, readsBack_pubkey.run_bind rfl,
    ReadsBack.u64.run_bind rfl]
  rfl

theorem AccountBalance.readsBack :
    ReadsBack AccountBalance.ofBytes fun b => some b.toBytes := by
  intro b bytes h rest
  cases h
  obtain ⟨difs, owner, executable, reputations⟩ := b
  simp only [AccountBalance.toBytes, List.append_assoc]
  rw [AccountBalance.ofBytes, ReadsBack.u64.run_bind rfl, readsBack_pubkey.run_bind rfl,
    ReadsBack.byte.run_bind rfl, StateT.run_bind, bytes_append (List.length_replicate ..)]
  simp only [Option.bind_eq_bind, Option.bind_some]
  rw [ReadsBack.u64.run_bind rfl]
  cases executable <;> rfl

/-- `StoredAccount`: a record as read from the file. -/
structure StoredAccount where
  storageMeta : StorageMeta
  balance : AccountBalance
  data : List UInt8
  deriving DecidableEq, Repr

/-- `StoredAccount::clone_account`. -/
def StoredAccount.cloneAccount (r : StoredAccount) : Account :=
  { difs := r.balance.difs, reputations := r.balance.reputations, data := r.data,
    owner := r.balance.owner, executable := r.balance.executable }

/-- `AppendVec`: the mapped file, the offset the next append starts from (`append_offset`, behind
its mutex), `current_len` and `file_size`. -/
structure AppendVec where
  map : Nat → UInt8
  appendOffset : Nat
  currentLen : Nat
  fileSize : Nat

namespace AppendVec

/-- `AppendVec::new` on a newly created file of `size` bytes. -/
def new (size : Nat) : AppendVec := ⟨fun _ => 0, 0, 0, size⟩

/-- `AppendVec::reset`. -/
def reset (av : AppendVec) : AppendVec := { av with appendOffset := 0, currentLen := 0 }

/-- `get_slice`: the bytes, and the aligned offset after them. -/
def getSlice (av : AppendVec) (offset size : Nat) : Option (List UInt8 × Nat) :=
  if av.currentLen < offset + size then none
  else some (readBytes av.map offset size, alignUp (offset + size) sizeOfU64)

/-- `append_ptr`. -/
def appendPtr (av : AppendVec) (offset : Nat) (src : Nat → UInt8) (len : Nat) :
    AppendVec × Nat :=
  let pos := alignUp offset sizeOfU64
  ({ av with map := copyBytes av.map pos len src }, pos + len)

/-- `append_ptrs_locked`: writes the fields when all of them fit, and returns where the first
one starts. -/
def appendPtrsLocked (av : AppendVec) (offset : Nat) (vals : List ((Nat → UInt8) × Nat)) :
    AppendVec × Nat × Option Nat :=
  let endPos := vals.foldl (fun endPos val => alignUp endPos sizeOfU64 + val.2) offset
  if av.fileSize < endPos then (av, offset, none)
  else
    let pos := alignUp offset sizeOfU64
    let (av, offset) := vals.foldl (fun acc val => acc.1.appendPtr acc.2 val.1 val.2) (av, offset)
    ({ av with currentLen := offset }, offset, some pos)

/-- `get_type`: the value whose bytes lie at `offset`. -/
def getType {α : Type} (av : AppendVec) (d : Decoder α) (size offset : Nat) :
    Option (α × Nat) := do
  let (data, next) ← av.getSlice offset size
  let value ← deserialize d data
  pure (value, next)

/-- `get_account`. -/
def getAccount (av : AppendVec) (offset : Nat) : Option (StoredAccount × Nat) := do
  let (storageMeta, next) ← av.getType StorageMeta.ofBytes sizeOfStorageMeta offset
  let (balance, next) ← av.getType AccountBalance.ofBytes sizeOfAccountBalance next
  let (data, next) ← av.getSlice next storageMeta.dataLen.toNat
  pure (⟨storageMeta, balance, data⟩, next)

/-- `get_account_test`. -/
def getAccountTest (av : AppendVec) (offset : Nat) : Option (StorageMeta × Account) :=
  (av.getAccount offset).map fun r => (r.1.storageMeta, r.1.cloneAccount)

theorem getSlice_eq_some {av : AppendVec} {offset size : Nat} {data : List UInt8} {next : Nat}
    (h : av.getSlice offset size = some (data, next)) :
    offset + size ≤ av.currentLen ∧ data = readBytes av.map offset size ∧
      next = alignUp (offset + size) sizeOfU64 := by
  unfold getSlice at h
  split at h
  · cases h
  · cases h
    exact ⟨by omega, rfl, rfl⟩

theorem getType_eq_some {α : Type} {av : AppendVec} {d : Decoder α} {size offset : Nat} {a : α}
    {next : Nat} (h : av.getType d size offset = some (a, next)) :
    offset + size ≤ av.currentLen ∧ next = alignUp (offset + size) sizeOfU64 := by
  simp only [getType, Option.bind_eq_bind, Option.bind_eq_some_iff, Option.pure_def,
    Option.some.injEq] at h
  obtain ⟨⟨data, next'⟩, hslice, _, _, hnext⟩ := h
  obtain ⟨hle, -, rfl⟩ := getSlice_eq_some hslice
  exact ⟨hle, (Prod.mk.inj hnext).2.symm⟩

/-- Where the balance of a record at `pos` starts. -/
def balanceOffset (pos : Nat) : Nat := alignUp (pos + sizeOfStorageMeta) sizeOfU64

/-- Where the data of a record at `pos` starts. -/
def dataOffset (pos : Nat) : Nat := alignUp (balanceOffset pos + sizeOfAccountBalance) sizeOfU64

/-- Where a record at `pos` ends: the `end` of `append_ptrs_locked`. -/
def recordEnd (pos : Nat) (m : StorageMeta) : Nat := dataOffset pos + m.dataLen.toNat

theorem add_le_balanceOffset (pos : Nat) : pos + sizeOfStorageMeta ≤ balanceOffset pos :=
  le_alignUp _

theorem add_le_dataOffset (pos : Nat) :
    balanceOffset pos + sizeOfAccountBalance ≤ dataOffset pos :=
  le_alignUp _

theorem add_sizeOfStorageMeta_le_recordEnd (pos : Nat) (m : StorageMeta) :
    pos + sizeOfStorageMeta ≤ recordEnd pos m := by
  have h₁ := add_le_balanceOffset pos
  have h₂ := add_le_dataOffset pos
  unfold recordEnd
  omega

/-- What a successful `get_account` read: a record that ends within `current_len`, and the aligned
offset after it. -/
theorem getAccount_eq_some {av : AppendVec} {offset : Nat} {r : StoredAccount} {next : Nat}
    (h : av.getAccount offset = some (r, next)) :
    recordEnd offset r.storageMeta ≤ av.currentLen ∧
      next = alignUp (recordEnd offset r.storageMeta) sizeOfU64 := by
  simp only [getAccount, Option.bind_eq_bind, Option.bind_eq_some_iff, Option.pure_def,
    Option.some.injEq] at h
  obtain ⟨⟨m, n₁⟩, h₁, ⟨b, n₂⟩, h₂, ⟨data, n₃⟩, h₃, hr⟩ := h
  obtain ⟨-, rfl⟩ := getType_eq_some h₁
  obtain ⟨-, rfl⟩ := getType_eq_some h₂
  obtain ⟨hle, -, rfl⟩ := getSlice_eq_some h₃
  obtain ⟨rfl, rfl⟩ := Prod.mk.inj hr
  exact ⟨hle, rfl⟩

/-- A record read at `offset` ends past it, and starts within `current_len`. -/
theorem lt_of_getAccount {av : AppendVec} {offset : Nat} {r : StoredAccount} {next : Nat}
    (h : av.getAccount offset = some (r, next)) :
    offset < next ∧ offset < av.currentLen := by
  obtain ⟨hle, rfl⟩ := getAccount_eq_some h
  have h₁ := add_sizeOfStorageMeta_le_recordEnd offset r.storageMeta
  have h₂ := le_alignUp (recordEnd offset r.storageMeta)
  unfold sizeOfStorageMeta at h₁
  omega

/-- `accounts`: the records from `start`, each read where the one before ends. -/
def accounts (av : AppendVec) (start : Nat) : List StoredAccount :=
  match h : av.getAccount start with
  | some (account, next) => account :: av.accounts next
  | none => []
termination_by av.currentLen + 1 - start
decreasing_by
  have := lt_of_getAccount h
  omega

/-- The balance `append_accounts` writes for an account. -/
def balanceOf (account : Account) : AccountBalance :=
  ⟨account.difs, account.owner, account.executable, account.reputations⟩

/-- The `ptrs` of `append_accounts`: each field of an account as a pointer and a length. -/
def fieldPtrs (m : StorageMeta) (account : Account) (beyond : Nat → UInt8) :
    List ((Nat → UInt8) × Nat) :=
  [(ptrOf m.toBytes, sizeOfStorageMeta), (ptrOf (balanceOf account).toBytes, sizeOfAccountBalance),
    (dataPtr account.data beyond, m.dataLen.toNat)]

/-- The loop of `append_accounts` from the locked offset; it stops at the first account that does
not fit. -/
def appendAccountsLoop (beyond : Nat → UInt8) :
    AppendVec → Nat → List (StorageMeta × Account) → AppendVec × Nat × List Nat
  | av, offset, [] => (av, offset, [])
  | av, offset, (m, account) :: accounts =>
    match av.appendPtrsLocked offset (fieldPtrs m account beyond) with
    | (av, offset, some res) =>
      let (av, offset, rv) := appendAccountsLoop beyond av offset accounts
      (av, offset, res :: rv)
    | (av, offset, none) => (av, offset, [])

/-- `append_accounts`: the offsets of the accounts stored, a prefix of those given.  `beyond` is
what memory holds past an account's data buffer. -/
def appendAccounts (av : AppendVec) (beyond : Nat → UInt8) (accounts : List (StorageMeta × Account)) :
    AppendVec × List Nat :=
  let (av, offset, rv) := appendAccountsLoop beyond av av.appendOffset accounts
  ({ av with appendOffset := offset }, rv)

theorem accounts_of_getAccount_some {av : AppendVec} {start : Nat} {r : StoredAccount} {next : Nat}
    (h : av.getAccount start = some (r, next)) : av.accounts start = r :: av.accounts next := by
  rw [accounts]
  split
  · rename_i r' next' h'
    obtain ⟨rfl, rfl⟩ := Prod.mk.inj (Option.some.inj (h'.symm.trans h))
    rfl
  · rename_i h'
    rw [h] at h'
    cases h'

theorem accounts_of_getAccount_none {av : AppendVec} {start : Nat}
    (h : av.getAccount start = none) : av.accounts start = [] := by
  rw [accounts]
  split
  · rename_i h'
    rw [h] at h'
    cases h'
  · rfl

/-! ## Reading a record back -/

/-- The three fields of `r` lie in `map` from `pos`. -/
structure RecordAt (map : Nat → UInt8) (pos : Nat) (r : StoredAccount) : Prop where
  storageMeta : readBytes map pos sizeOfStorageMeta = r.storageMeta.toBytes
  balance : readBytes map (balanceOffset pos) sizeOfAccountBalance = r.balance.toBytes
  data : readBytes map (dataOffset pos) r.storageMeta.dataLen.toNat = r.data

/-- A record depends only on the memory below its end. -/
theorem RecordAt.congr {map map' : Nat → UInt8} {pos : Nat} {r : StoredAccount}
    (h : ∀ i < recordEnd pos r.storageMeta, map i = map' i) (hr : RecordAt map pos r) :
    RecordAt map' pos r := by
  have h₁ := add_le_balanceOffset pos
  have h₂ := add_le_dataOffset pos
  have hagree : ∀ o n, o + n ≤ recordEnd pos r.storageMeta → readBytes map o n = readBytes map' o n :=
    fun o n hle => readBytes_congr fun i _ hi => h i (by omega)
  refine ⟨?_, ?_, ?_⟩
  · rw [← hagree _ _ (by unfold recordEnd; omega), hr.storageMeta]
  · rw [← hagree _ _ (by unfold recordEnd; omega), hr.balance]
  · rw [← hagree _ _ (by unfold recordEnd; omega), hr.data]

theorem getType_of_readBytes {α : Type} {av : AppendVec} {d : Decoder α} {encode : α → List UInt8}
    (hd : ReadsBack d fun a => some (encode a)) {a : α} {size offset : Nat}
    (hread : readBytes av.map offset size = encode a) (hle : offset + size ≤ av.currentLen) :
    av.getType d size offset = some (a, alignUp (offset + size) sizeOfU64) := by
  have hdecode : deserialize d (encode a) = some a := by
    simpa using deserialize_of_run (hd a _ rfl [])
  simp [getType, getSlice, if_neg (Nat.not_lt.2 hle), hread, hdecode]

/-- Where a write left a record, a read finds it, and the offset after it. -/
theorem getAccount_of_recordAt {av : AppendVec} {pos : Nat} {r : StoredAccount}
    (hr : RecordAt av.map pos r) (hle : recordEnd pos r.storageMeta ≤ av.currentLen) :
    av.getAccount pos = some (r, alignUp (recordEnd pos r.storageMeta) sizeOfU64) := by
  have h₁ := add_le_balanceOffset pos
  have h₂ := add_le_dataOffset pos
  have hmeta : av.getType StorageMeta.ofBytes sizeOfStorageMeta pos =
      some (r.storageMeta, balanceOffset pos) :=
    getType_of_readBytes StorageMeta.readsBack hr.storageMeta (by unfold recordEnd at hle; omega)
  have hbalance : av.getType AccountBalance.ofBytes sizeOfAccountBalance (balanceOffset pos) =
      some (r.balance, dataOffset pos) :=
    getType_of_readBytes AccountBalance.readsBack hr.balance (by unfold recordEnd at hle; omega)
  have hdata : av.getSlice (dataOffset pos) r.storageMeta.dataLen.toNat =
      some (r.data, alignUp (recordEnd pos r.storageMeta) sizeOfU64) := by
    rw [getSlice, if_neg (by unfold recordEnd at hle; omega), hr.data]
    rfl
  simp only [getAccount, hmeta, hbalance, hdata, Option.bind_eq_bind, Option.bind_some,
    Option.pure_def]

theorem getAccount_eq_none {av : AppendVec} {pos : Nat}
    (h : av.currentLen < pos + sizeOfStorageMeta) : av.getAccount pos = none := by
  simp [getAccount, getType, getSlice, h]

/-! ## Records laid one after another -/

/-- The records lie one after another from `o`, where the one before ends, each at the next aligned
offset, the last ending at `e`. -/
def Laid (map : Nat → UInt8) : Nat → List (Nat × StoredAccount) → Nat → Prop
  | o, [], e => e = o
  | o, (pos, r) :: rs, e =>
    pos = alignUp o sizeOfU64 ∧ RecordAt map pos r ∧ Laid map (recordEnd pos r.storageMeta) rs e

theorem Laid.le {map : Nat → UInt8} : ∀ {o : Nat} {rs : List (Nat × StoredAccount)} {e : Nat},
    Laid map o rs e → o ≤ e
  | _, [], _, h => Nat.le_of_eq h.symm
  | o, (pos, r) :: _, _, ⟨hpos, _, hrest⟩ => by
    have h₁ := le_alignUp o
    have h₂ := add_sizeOfStorageMeta_le_recordEnd pos r.storageMeta
    have h₃ := hrest.le
    omega

/-- Records depend only on the memory below their end. -/
theorem Laid.congr {map map' : Nat → UInt8} :
    ∀ {o : Nat} {rs : List (Nat × StoredAccount)} {e : Nat}, (∀ i < e, map i = map' i) →
      Laid map o rs e → Laid map' o rs e
  | _, [], _, _, h => h
  | _, (_, _) :: _, _, hagree, ⟨hpos, hr, hrest⟩ =>
    ⟨hpos, hr.congr fun i hi => hagree i (Nat.lt_of_lt_of_le hi hrest.le),
      hrest.congr hagree⟩

/-- A record at the next aligned offset extends the records. -/
theorem Laid.snoc {map : Nat → UInt8} {r : StoredAccount} (hr : RecordAt map (alignUp e sizeOfU64) r) :
    ∀ {o : Nat} {rs : List (Nat × StoredAccount)}, Laid map o rs e →
      Laid map o (rs ++ [(alignUp e sizeOfU64, r)]) (recordEnd (alignUp e sizeOfU64) r.storageMeta)
  | _, [], h => ⟨by rw [h], hr, rfl⟩
  | _, (_, _) :: _, ⟨hpos, hr', hrest⟩ => ⟨hpos, hr', hrest.snoc hr⟩

/-- Each laid record reads back from where it lies. -/
theorem getAccount_of_laid {av : AppendVec} :
    ∀ {o : Nat} {rs : List (Nat × StoredAccount)}, Laid av.map o rs av.currentLen →
      ∀ {pos : Nat} {r : StoredAccount}, (pos, r) ∈ rs →
        av.getAccount pos = some (r, alignUp (recordEnd pos r.storageMeta) sizeOfU64)
  | _, [], _, _, _, hmem => nomatch hmem
  | _, (pos', r') :: _, ⟨_, hr, hrest⟩, pos, r, hmem => by
    rcases List.mem_cons.1 hmem with heq | hmem
    · obtain ⟨rfl, rfl⟩ := Prod.mk.inj heq
      exact getAccount_of_recordAt hr hrest.le
    · exact getAccount_of_laid hrest hmem

/-- Read from the first one on, the laid records are all `accounts` returns.  The induction is on
the records; past the last one, `current_len` stops the read. -/
theorem accounts_of_laid {av : AppendVec} :
    ∀ {o : Nat} {rs : List (Nat × StoredAccount)}, Laid av.map o rs av.currentLen →
      av.accounts (alignUp o sizeOfU64) = rs.map Prod.snd
  | o, [], h => by
    have hend : av.currentLen = o := h
    have := le_alignUp o
    rw [accounts_of_getAccount_none (getAccount_eq_none (by unfold sizeOfStorageMeta; omega))]
    rfl
  | _, (pos, r) :: _, ⟨hpos, hr, hrest⟩ => by
    rw [← hpos, accounts_of_getAccount_some (getAccount_of_recordAt hr hrest.le),
      accounts_of_laid hrest]
    rfl

/-! ## Appending -/

/-- The record `append_accounts` writes for an account. -/
def record (beyond : Nat → UInt8) (m : StorageMeta) (account : Account) : StoredAccount :=
  ⟨m, balanceOf account, (List.range m.dataLen.toNat).map (dataPtr account.data beyond)⟩

theorem readBytes_copyBytes_ptrOf (map : Nat → UInt8) (pos : Nat) {bs : List UInt8} {len : Nat}
    (h : bs.length = len) : readBytes (copyBytes map pos len (ptrOf bs)) pos len = bs := by
  subst h
  rw [readBytes_copyBytes_self, range_map_ptrOf]

/-- `append_ptrs_locked` on an account's fields when they do not fit. -/
theorem appendPtrsLocked_of_lt {av : AppendVec} {offset : Nat} {m : StorageMeta}
    (account : Account) (beyond : Nat → UInt8)
    (h : av.fileSize < recordEnd (alignUp offset sizeOfU64) m) :
    av.appendPtrsLocked offset (fieldPtrs m account beyond) = (av, offset, none) := by
  simp only [appendPtrsLocked, fieldPtrs, List.foldl_cons, List.foldl_nil]
  exact if_pos h

/-- `append_ptrs_locked` on an account's fields when they fit: the record at the next aligned
offset, the memory below it as it was, and `current_len` at its end. -/
theorem appendPtrsLocked_of_le {av : AppendVec} {offset : Nat} {m : StorageMeta}
    (account : Account) (beyond : Nat → UInt8)
    (h : recordEnd (alignUp offset sizeOfU64) m ≤ av.fileSize) :
    ∃ map', av.appendPtrsLocked offset (fieldPtrs m account beyond) =
        ({ av with map := map', currentLen := recordEnd (alignUp offset sizeOfU64) m },
          recordEnd (alignUp offset sizeOfU64) m, some (alignUp offset sizeOfU64)) ∧
      (∀ i < alignUp offset sizeOfU64, map' i = av.map i) ∧
      RecordAt map' (alignUp offset sizeOfU64) (record beyond m account) := by
  set pos := alignUp offset sizeOfU64 with hpos
  have h₁ := add_le_balanceOffset pos
  have h₂ := add_le_dataOffset pos
  -- the three copies, at the offsets a read recomputes
  let map₁ := copyBytes av.map pos sizeOfStorageMeta (ptrOf m.toBytes)
  let map₂ := copyBytes map₁ (balanceOffset pos) sizeOfAccountBalance
    (ptrOf (balanceOf account).toBytes)
  let map₃ := copyBytes map₂ (dataOffset pos) m.dataLen.toNat (dataPtr account.data beyond)
  refine ⟨map₃, ?_, fun i hi => ?_, ⟨?_, ?_, ?_⟩⟩
  · simp only [appendPtrsLocked, fieldPtrs, List.foldl_cons, List.foldl_nil]
    exact (if_neg (Nat.not_lt.2 h)).trans rfl
  · dsimp only [map₃, map₂, map₁]
    rw [copyBytes_of_lt (by omega), copyBytes_of_lt (by omega), copyBytes_of_lt hi]
  · dsimp only [map₃, map₂, map₁]
    rw [readBytes_copyBytes_of_le (by omega), readBytes_copyBytes_of_le (by omega),
      readBytes_copyBytes_ptrOf _ _ (StorageMeta.length_toBytes m)]
    rfl
  · dsimp only [map₃, map₂]
    rw [readBytes_copyBytes_of_le (by omega),
      readBytes_copyBytes_ptrOf _ _ (AccountBalance.length_toBytes _)]
    rfl
  · exact readBytes_copyBytes_self _ _ _ _

/-- The loop of `append_accounts` from `current_len` over laid records: it lays the records of a
prefix of the accounts after them, one for each offset it returns, and ends at the new
`current_len`.  The induction is on the accounts. -/
theorem appendAccountsLoop_laid (beyond : Nat → UInt8) :
    ∀ (accounts : List (StorageMeta × Account)) {av av' : AppendVec} {rs : List (Nat × StoredAccount)}
      {offset : Nat} {offsets : List Nat},
      Laid av.map 0 rs av.currentLen →
      appendAccountsLoop beyond av av.currentLen accounts = (av', offset, offsets) →
      offset = av'.currentLen ∧ av'.fileSize = av.fileSize ∧ offsets.length ≤ accounts.length ∧
        Laid av'.map 0 (rs ++ offsets.zip (accounts.map fun e => record beyond e.1 e.2))
          av'.currentLen
  | [], _, _, _, _, _, hlaid, hloop => by
    cases hloop
    exact ⟨rfl, rfl, Nat.le_refl _, by simpa using hlaid⟩
  | (m, account) :: accounts, av, av', rs, offset, offsets, hlaid, hloop => by
    by_cases hfit : recordEnd (alignUp av.currentLen sizeOfU64) m ≤ av.fileSize
    · obtain ⟨map', hlocked, hbelow, hrec⟩ := appendPtrsLocked_of_le account beyond hfit
      rw [appendAccountsLoop, hlocked] at hloop
      -- the record laid after the others, in memory that agrees below it
      have hlaid' := (hlaid.congr fun i hi =>
        (hbelow i (Nat.lt_of_lt_of_le hi (le_alignUp _))).symm).snoc hrec
      cases hres : appendAccountsLoop beyond
          { av with map := map', currentLen := recordEnd (alignUp av.currentLen sizeOfU64) m }
          (recordEnd (alignUp av.currentLen sizeOfU64) m) accounts with
      | mk av₁ rest =>
        obtain ⟨offset₁, offsets₁⟩ := rest
        simp only [hres, Prod.mk.injEq] at hloop
        obtain ⟨rfl, rfl, rfl⟩ := hloop
        obtain ⟨hoff, hsize, hlen, hlaid''⟩ := appendAccountsLoop_laid beyond accounts hlaid' hres
        refine ⟨hoff, hsize, by simpa using hlen, ?_⟩
        simpa using hlaid''
    · rw [appendAccountsLoop, appendPtrsLocked_of_lt account beyond (Nat.lt_of_not_le hfit)] at hloop
      cases hloop
      exact ⟨rfl, rfl, Nat.zero_le _, by simpa using hlaid⟩

/-! ## Sequences of appends -/

/-- What an append vector holds since its last reset: records laid from the start up to
`current_len`, where the next append begins. -/
structure Holds (av : AppendVec) (rs : List (Nat × StoredAccount)) : Prop where
  appendOffset_eq : av.appendOffset = av.currentLen
  laid : Laid av.map 0 rs av.currentLen

theorem holds_reset (av : AppendVec) : Holds av.reset [] := ⟨rfl, rfl⟩

/-- `append_accounts` lays the records of a prefix of its accounts after those held, one for each
offset it returns. -/
theorem Holds.appendAccounts {av av' : AppendVec} {rs : List (Nat × StoredAccount)}
    (h : Holds av rs) {beyond : Nat → UInt8} {accounts : List (StorageMeta × Account)}
    {offsets : List Nat} (happ : av.appendAccounts beyond accounts = (av', offsets)) :
    offsets.length ≤ accounts.length ∧
      Holds av' (rs ++ offsets.zip (accounts.map fun e => record beyond e.1 e.2)) := by
  unfold AppendVec.appendAccounts at happ
  rw [h.appendOffset_eq] at happ
  cases hres : appendAccountsLoop beyond av av.currentLen accounts with
  | mk av₁ rest =>
    obtain ⟨offset₁, offsets₁⟩ := rest
    simp only [hres, Prod.mk.injEq] at happ
    obtain ⟨rfl, rfl⟩ := happ
    obtain ⟨hoff, -, hlen, hlaid⟩ := appendAccountsLoop_laid beyond accounts h.laid hres
    exact ⟨hlen, hoff, hlaid⟩

/-- A sequence of `append_accounts` calls, with the offsets each returns. -/
def appendRun (beyond : Nat → UInt8) :
    AppendVec → List (List (StorageMeta × Account)) → AppendVec × List (List Nat)
  | av, [] => (av, [])
  | av, accounts :: calls =>
    let (av, offsets) := av.appendAccounts beyond accounts
    let (av, rest) := appendRun beyond av calls
    (av, offsets :: rest)

/-- The accounts the calls stored, each with the offset returned for it. -/
def appended (calls : List (List (StorageMeta × Account))) (offsets : List (List Nat)) :
    List (Nat × StorageMeta × Account) :=
  (offsets.zip calls).flatMap fun p => p.1.zip p.2

theorem mem_appended {calls : List (List (StorageMeta × Account))} {offsets : List (List Nat)}
    {s : Nat × StorageMeta × Account} (hs : s ∈ appended calls offsets) :
    ∃ accounts ∈ calls, s.2 ∈ accounts := by
  obtain ⟨p, hp, hsp⟩ := List.mem_flatMap.1 hs
  exact ⟨p.2, (List.of_mem_zip hp).2, (List.of_mem_zip hsp).2⟩

/-- Over a sequence of calls, the records of what each call stored follow one another.  The
induction is on the calls. -/
theorem Holds.appendRun (beyond : Nat → UInt8) :
    ∀ (calls : List (List (StorageMeta × Account))) {av : AppendVec}
      {rs : List (Nat × StoredAccount)}, Holds av rs →
      (∀ p ∈ (appendRun beyond av calls).2.zip calls, p.1.length ≤ p.2.length) ∧
        Holds (appendRun beyond av calls).1
          (rs ++ (appended calls (appendRun beyond av calls).2).map
            fun s => (s.1, record beyond s.2.1 s.2.2))
  | [], _, _, h => ⟨by simp [AppendVec.appendRun], by simpa [AppendVec.appendRun, appended] using h⟩
  | accounts :: calls, av, rs, h => by
    cases happ : av.appendAccounts beyond accounts with
    | mk av₁ offsets =>
      obtain ⟨hlen, h₁⟩ := h.appendAccounts happ
      obtain ⟨hcalls, h₂⟩ := Holds.appendRun beyond calls h₁
      simp only [AppendVec.appendRun, happ]
      refine ⟨?_, ?_⟩
      · intro p hp
        rcases List.mem_cons.1 (by simpa using hp) with rfl | hp
        · exact hlen
        · exact hcalls p hp
      · have hfun : (Prod.map id fun e : StorageMeta × Account => record beyond e.1 e.2) =
            fun s : Nat × StorageMeta × Account => (s.1, record beyond s.2.1 s.2.2) := rfl
        simpa [appended, List.zip_map_right, hfun] using h₂

/-- Within the account's buffer, the record's account is the account with its data cut to
`data_len`. -/
theorem cloneAccount_record {m : StorageMeta} {account : Account}
    (h : m.dataLen.toNat ≤ account.data.length) (beyond : Nat → UInt8) :
    (record beyond m account).cloneAccount = { account with data := account.data.take m.dataLen.toNat } := by
  unfold record StoredAccount.cloneAccount balanceOf
  rw [range_map_dataPtr h]

/-- `test_utils::create_test_account`: an account of `sample` difs whose data is `sample % 256`
bytes of that value, with its meta. -/
def createTestAccount (sample : Nat) : StorageMeta × Account :=
  let dataLen := sample % 256
  (⟨0, default, UInt64.ofNat dataLen⟩,
    ⟨UInt64.ofNat sample, 0, List.replicate dataLen (UInt8.ofNat dataLen), default, false⟩)

/-- An account with no data, stored with a `data_len` of one, reads back with the byte past its
buffer, whatever that byte is. -/
theorem getAccountTest_past_data (beyond : Nat → UInt8) :
    ((new 1024).appendAccounts beyond [(⟨0, default, 1⟩, default)]).2 = [0] ∧
      ((new 1024).appendAccounts beyond [(⟨0, default, 1⟩, default)]).1.getAccountTest 0 =
        some (⟨0, default, 1⟩, { (default : Account) with data := [beyond 0] }) := by
  obtain ⟨map', hlocked, -, hrec⟩ :=
    @appendPtrsLocked_of_le (new 1024) 0 ⟨0, default, 1⟩ default beyond (by decide)
  have happ : (new 1024).appendAccounts beyond [(⟨0, default, 1⟩, default)] =
      ({ new 1024 with map := map', currentLen := 105, appendOffset := 105 }, [0]) := by
    rw [appendAccounts, show (new 1024).appendOffset = 0 from rfl, appendAccountsLoop, hlocked]
    rfl
  rw [happ]
  refine ⟨rfl, ?_⟩
  rw [getAccountTest,
    getAccount_of_recordAt hrec (show recordEnd 0 ⟨0, default, 1⟩ ≤ 105 by decide)]
  rfl

end AppendVec

end Morgan
