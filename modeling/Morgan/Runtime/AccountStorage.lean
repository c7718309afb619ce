import Mathlib
import Morgan.Runtime.AccountsDb
import Morgan.Runtime.AppendVec

/-!
# The accounts database over its storage

`accounts_db.rs` and `accounts_index.rs` at the level of storage (`AccountsDb` models the index
alone, with the accounts in place of where they are stored).  Each fork's accounts are appended to
storage entries, each an `AppendVec` with a count of the index entries into it and a status; the
index maps each key to one `AccountInfo` per fork, naming a storage entry and an offset in it.

`store` appends the accounts to storage of the fork (`store_accounts`), records them in the index,
which hands back the entries it drops (`update_index`), takes those off the counts
(`remove_dead_accounts`), and drops the storage of forks left with nothing in it.  A storage entry
that is full and empty is reset for reuse (`set_status`, `remove_account`).

`fork_storage` picks one of the fork's available storage entries at random, in the order of a hash
map: each iteration of the loop of `store_accounts` draws a number that picks the entry, and runs
out of draws stands for a loop that has not ended yet.  `usize` arithmetic is unbounded, except
`count - 1`, whose overflow at zero is a panic.

The loop only moves on when an account is appended.  An account whose record cannot fit in an empty
append vector never is: the storage marked full when it does not fit has nothing in it, so it is
reset and stays available, and the loop goes on for ever (`store_loops_on_account_larger_than_file`).
-/

namespace Morgan

/-- `AccountStorageStatus`. -/
inductive AccountStorageStatus where
  | storageAvailable
  | storageFull
  deriving DecidableEq, Repr

/-- `AccountInfo`: the storage entry, the offset in it, and the account's difs. -/
structure AccountInfo where
  id : Nat
  offset : Nat
  difs : UInt64
  deriving DecidableEq, Repr

/-- `AccountStorageEntry`, its `count_and_status` as two fields. -/
structure AccountStorageEntry where
  id : Nat
  forkId : Fork
  accounts : AppendVec
  count : Nat
  status : AccountStorageStatus

namespace AccountStorageEntry

/-- `AccountStorageEntry::new`. -/
def new (forkId : Fork) (id : Nat) (fileSize : Nat) : AccountStorageEntry :=
  ⟨id, forkId, AppendVec.new fileSize, 0, .storageAvailable⟩

/-- `set_status`: an entry found full with nothing in it is reset and made available. -/
def setStatus (e : AccountStorageEntry) (status : AccountStorageStatus) : AccountStorageEntry :=
  if status = .storageFull ∧ e.count = 0 then
    { e with accounts := e.accounts.reset, status := .storageAvailable }
  else { e with status := status }

/-- `add_account`. -/
def addAccount (e : AccountStorageEntry) : AccountStorageEntry := { e with count := e.count + 1 }

/-- `remove_account`: the last account of a full entry resets it; `none` is the overflow of
`count - 1` at zero. -/
def removeAccount (e : AccountStorageEntry) : Option AccountStorageEntry :=
  let e' := if e.count = 1 ∧ e.status = .storageFull then
      { e with accounts := e.accounts.reset, status := .storageAvailable }
    else e
  if e.count = 0 then none else some { e' with count := e.count - 1 }

end AccountStorageEntry

/-- `AccountsIndex<T>`: the versions of each key by fork, the roots and the last root. -/
structure AccountsIndex (T : Type) where
  accountMaps : AssocMap Pubkey (List (Fork × T))
  roots : List Fork
  lastRoot : Fork
  keys_nodup : accountMaps.keys.Nodup

namespace AccountsIndex

variable {T : Type}

/-- An index with no keys and no roots. -/
def empty : AccountsIndex T := ⟨[], [], 0, List.nodup_nil⟩

/-- The versions of a key. -/
def versions (index : AccountsIndex T) (key : Pubkey) : List (Fork × T) :=
  (index.accountMaps.get? key).getD []

/-- `is_purged`. -/
def isPurged (index : AccountsIndex T) (fork : Fork) : Bool := fork < index.lastRoot

/-- `is_root`. -/
def isRoot (index : AccountsIndex T) (fork : Fork) : Bool := fork ∈ index.roots

/-- `insert`: replace the fork's version, drop the purged ones, and return what was dropped. -/
def insert (index : AccountsIndex T) (fork : Fork) (pubkey : Pubkey) (accountInfo : T) :
    AccountsIndex T × List (Fork × T) :=
  let forkVec := index.versions pubkey
  let rv := forkVec.filter (·.1 == fork)
  let forkVec := forkVec.filter (·.1 != fork) ++ [(fork, accountInfo)]
  let rv := rv ++ forkVec.filter fun e => index.isPurged e.1
  let forkVec := forkVec.filter fun e => !index.isPurged e.1
  ({ index with
      accountMaps := index.accountMaps.set pubkey forkVec
      keys_nodup := AssocMap.nodup_keys_set index.keys_nodup pubkey forkVec }, rv)

/-- `add_root`; `none` is the panic of its assertion that roots increase. -/
def addRoot (index : AccountsIndex T) (fork : Fork) : Option (AccountsIndex T) :=
  if (index.lastRoot = 0 ∧ fork = 0) ∨ fork > index.lastRoot then
    some { index with lastRoot := fork, roots := index.roots.insert fork }
  else none

/-- `cleanup_dead_fork`. -/
def cleanupDeadFork (index : AccountsIndex T) (fork : Fork) : AccountsIndex T :=
  { index with roots := index.roots.erase fork }

end AccountsIndex

/-- `ACCOUNT_DATA_FILE_SIZE`. -/
def ACCOUNT_DATA_FILE_SIZE : Nat := 64 * 1024 * 1024

/-- `AccountsDB`: the index, the storage entries by id, the next id, the write version and the
size of each new append vector. -/
structure AccountsDB where
  accountsIndex : AccountsIndex AccountInfo
  storage : AssocMap Nat AccountStorageEntry
  nextId : Nat
  writeVersion : Nat
  fileSize : Nat

namespace AccountsDB

/-- `AccountsDB::new_with_file_size`. -/
def new (fileSize : Nat) : AccountsDB := ⟨AccountsIndex.empty, [], 0, 0, fileSize⟩

/-- `new_storage_entry`. -/
def newStorageEntry (db : AccountsDB) (forkId : Fork) : AccountStorageEntry :=
  AccountStorageEntry.new forkId db.nextId db.fileSize

/-- `fork_storage`: one of the fork's available entries, picked by `draw`, or a new one. -/
def forkStorage (db : AccountsDB) (forkId : Fork) (draw : Nat) :
    AccountsDB × AccountStorageEntry :=
  match (db.storage.filter fun e =>
      e.2.status = .storageAvailable ∧ e.2.forkId = forkId).map (·.2) with
  | [] =>
    let storage := db.newStorageEntry forkId
    ({ db with storage := db.storage.insert storage.id storage, nextId := db.nextId + 1 }, storage)
  | c :: cs => (db, (c :: cs).get ⟨draw % (cs.length + 1), Nat.mod_lt _ (Nat.succ_pos _)⟩)

/-- `purge_fork`: a fork that is not a root loses its storage. -/
def purgeFork (db : AccountsDB) (fork : Fork) : AccountsDB :=
  if db.accountsIndex.isRoot fork then db
  else { db with storage := db.storage.filter fun e => e.2.forkId != fork }

/-- The `StorageMeta` of each account, with the write versions it takes: `data_len` is zero when
the account has no difs. -/
def withMeta (db : AccountsDB) (accounts : List (Pubkey × Account)) :
    List (StorageMeta × Account) :=
  accounts.mapIdx fun i e =>
    (⟨UInt64.ofNat (db.writeVersion + i), e.1,
      if e.2.difs = 0 then 0 else UInt64.ofNat e.2.data.length⟩, e.2)

/-- One iteration of the loop of `store_accounts`: append what is left to a storage entry of the
fork, mark it full when nothing fits, and count and record what was appended.  No `data_len` is
more than the account's data, so no byte past it is read. -/
def storeAccountsStep (db : AccountsDB) (forkId : Fork) (withMeta : List (StorageMeta × Account))
    (infos : List AccountInfo) (draw : Nat) : AccountsDB × List AccountInfo :=
  let (db, storage) := db.forkStorage forkId draw
  let rest := withMeta.drop infos.length
  let (accounts, rvs) := storage.accounts.appendAccounts (fun _ => 0) rest
  let storage := { storage with accounts := accounts }
  let storage := if rvs.isEmpty then storage.setStatus .storageFull else storage
  let storage := rvs.foldl (fun storage _ => storage.addAccount) storage
  let infos := infos ++ (rvs.zip rest).map fun e => ⟨storage.id, e.1, e.2.2.difs⟩
  ({ db with storage := db.storage.insert storage.id storage }, infos)

/-- The loop of `store_accounts`, one draw an iteration; `none` when the draws run out first. -/
def storeAccountsLoop (forkId : Fork) (withMeta : List (StorageMeta × Account)) :
    AccountsDB → List Nat → List AccountInfo → Option (AccountsDB × List AccountInfo)
  | db, draws, infos =>
    if infos.length < withMeta.length then
      match draws with
      | [] => none
      | draw :: draws =>
        let (db, infos) := db.storeAccountsStep forkId withMeta infos draw
        storeAccountsLoop forkId withMeta db draws infos
    else some (db, infos)

/-- `store_accounts`. -/
def storeAccounts (db : AccountsDB) (forkId : Fork) (accounts : List (Pubkey × Account))
    (draws : List Nat) : Option (AccountsDB × List AccountInfo) :=
  storeAccountsLoop forkId (db.withMeta accounts)
    { db with writeVersion := db.writeVersion + accounts.length } draws []

/-- `update_index`: each account's info into the index, and the entries the index drops. -/
def updateIndex (db : AccountsDB) (forkId : Fork) (infos : List AccountInfo)
    (accounts : List (Pubkey × Account)) : AccountsDB × List (Fork × AccountInfo) :=
  let (index, reclaims) := (infos.zip accounts).foldl
    (fun acc e =>
      let (index, rv) := acc.1.insert forkId e.2.1 e.1
      (index, acc.2 ++ rv))
    (db.accountsIndex, [])
  ({ db with accountsIndex := index }, reclaims)

/-- One reclaimed entry off the count of its storage; `none` is the panic of the assertion that the
storage is of the entry's fork, or of `remove_account`. -/
def removeDeadAccount (storage : AssocMap Nat AccountStorageEntry) (reclaim : Fork × AccountInfo) :
    Option (AssocMap Nat AccountStorageEntry) :=
  match storage.get? reclaim.2.id with
  | none => some storage
  | some store =>
    if reclaim.1 = store.forkId then (store.removeAccount).map (storage.insert reclaim.2.id)
    else none

/-- `remove_dead_accounts`: the reclaimed entries off the counts, and the forks all of whose
storage is then empty. -/
def removeDeadAccounts (db : AccountsDB) (reclaims : List (Fork × AccountInfo)) :
    Option (AccountsDB × List Fork) := do
  let storage ← reclaims.foldlM removeDeadAccount db.storage
  let deadForks := ((storage.filter fun e => e.2.count = 0).map (·.2.forkId)).dedup
  let liveForks := (storage.filter fun e => 0 < e.2.count).map (·.2.forkId)
  pure ({ db with storage := storage }, deadForks.filter (· ∉ liveForks))

/-- `cleanup_dead_forks`: of the dead forks, those below the last root leave the roots. -/
def cleanupDeadForks (db : AccountsDB) (deadForks : List Fork) : AccountsDB × List Fork :=
  let deadForks := deadForks.filter (· < db.accountsIndex.lastRoot)
  ({ db with accountsIndex := deadForks.foldl AccountsIndex.cleanupDeadFork db.accountsIndex },
    deadForks)

/-- `store`: `none` when the loop of `store_accounts` has not ended within the draws, `some none`
when the call panics. -/
def store (db : AccountsDB) (forkId : Fork) (accounts : List (Pubkey × Account))
    (draws : List Nat) : Option (Option AccountsDB) :=
  (db.storeAccounts forkId accounts draws).map fun r => do
    let (db, reclaims) := r.1.updateIndex forkId r.2 accounts
    let (db, deadForks) ← db.removeDeadAccounts reclaims
    let (db, deadForks) := db.cleanupDeadForks deadForks
    pure (deadForks.foldl purgeFork db)

/-- `add_root`. -/
def addRoot (db : AccountsDB) (fork : Fork) : Option AccountsDB :=
  (db.accountsIndex.addRoot fork).map fun index => { db with accountsIndex := index }

/-! ## An account that cannot fit -/

/-- Every storage entry's append vector has the size of a new one. -/
def FileSized (db : AccountsDB) : Prop := ∀ e ∈ db.storage, e.2.accounts.fileSize = db.fileSize

/-- A record takes its two headers and its data at least. -/
theorem add_dataLen_le_recordEnd (pos : Nat) (m : StorageMeta) :
    sizeOfStorageMeta + sizeOfAccountBalance + m.dataLen.toNat ≤ AppendVec.recordEnd pos m := by
  have h₁ := AppendVec.add_le_balanceOffset pos
  have h₂ := AppendVec.add_le_dataOffset pos
  unfold AppendVec.recordEnd
  omega

/-- An account whose record is larger than the file is not appended, wherever the file stands. -/
theorem appendAccounts_of_oversized (av : AppendVec) (beyond : Nat → UInt8) {m : StorageMeta}
    {account : Account} (rest : List (StorageMeta × Account))
    (hbig : av.fileSize < sizeOfStorageMeta + sizeOfAccountBalance + m.dataLen.toNat) :
    av.appendAccounts beyond ((m, account) :: rest) = ({ av with appendOffset := av.appendOffset }, []) := by
  have hlt : av.fileSize < AppendVec.recordEnd (alignUp av.appendOffset sizeOfU64) m :=
    Nat.lt_of_lt_of_le hbig (add_dataLen_le_recordEnd _ m)
  simp only [AppendVec.appendAccounts, AppendVec.appendAccountsLoop,
    AppendVec.appendPtrsLocked_of_lt account beyond hlt]

/-- The entry `fork_storage` picks has the size of a new one, and so does every entry after it. -/
theorem forkStorage_fileSized {db : AccountsDB} (hdb : db.FileSized) (forkId : Fork)
    (draw : Nat) :
    (db.forkStorage forkId draw).1.FileSized ∧ (db.forkStorage forkId draw).1.fileSize = db.fileSize ∧
      (db.forkStorage forkId draw).2.accounts.fileSize = db.fileSize := by
  unfold forkStorage
  split
  · refine ⟨fun e he => ?_, rfl, rfl⟩
    rcases AssocMap.mem_insert he with he | rfl
    · exact hdb e he
    · rfl
  · rename_i c cs hcands
    refine ⟨hdb, rfl, ?_⟩
    -- the pick is one of the candidates, each an entry of the storage
    have hmem : (c :: cs).get ⟨draw % (cs.length + 1), Nat.mod_lt _ (Nat.succ_pos _)⟩ ∈
        (db.storage.filter fun e => e.2.status = .storageAvailable ∧ e.2.forkId = forkId).map
          (·.2) := by
      rw [hcands]
      exact List.get_mem _ _
    obtain ⟨e, he, heq⟩ := List.mem_map.1 hmem
    rw [← heq]
    exact hdb e (List.mem_of_mem_filter he)

/-- An iteration that finds the next account too large appends nothing, and leaves every entry the
size of a new one. -/
theorem storeAccountsStep_of_oversized {db : AccountsDB} (hdb : db.FileSized) {forkId : Fork}
    {withMeta : List (StorageMeta × Account)} {infos : List AccountInfo} {m : StorageMeta}
    {account : Account} {rest : List (StorageMeta × Account)}
    (hnext : withMeta.drop infos.length = (m, account) :: rest)
    (hbig : db.fileSize < sizeOfStorageMeta + sizeOfAccountBalance + m.dataLen.toNat) (draw : Nat) :
    (db.storeAccountsStep forkId withMeta infos draw).2 = infos ∧
      (db.storeAccountsStep forkId withMeta infos draw).1.FileSized ∧
      (db.storeAccountsStep forkId withMeta infos draw).1.fileSize = db.fileSize := by
  obtain ⟨hdb', hsize, hpick⟩ := forkStorage_fileSized hdb forkId draw
  have happ : (db.forkStorage forkId draw).2.accounts.appendAccounts (fun _ => 0)
      ((m, account) :: rest) = ({ (db.forkStorage forkId draw).2.accounts with
        appendOffset := (db.forkStorage forkId draw).2.accounts.appendOffset }, []) :=
    appendAccounts_of_oversized _ _ rest (by rw [hpick]; exact hbig)
  simp only [storeAccountsStep, hnext, happ, List.isEmpty_nil, if_true, List.foldl_nil,
    List.zip_nil_left, List.map_nil, List.append_nil]
  refine ⟨trivial, fun e he => ?_, hsize⟩
  rcases AssocMap.mem_insert he with he | rfl
  · exact hdb' e he
  · -- the entry marked full, reset or not, keeps its file
    simp only [AccountStorageEntry.setStatus]
    split <;> simp [AppendVec.reset, hpick, hsize]

/-- The loop never ends while the next account is too large: no draw appends it. -/
theorem storeAccountsLoop_of_oversized {forkId : Fork} {withMeta : List (StorageMeta × Account)}
    {infos : List AccountInfo} {m : StorageMeta} {account : Account}
    {rest : List (StorageMeta × Account)} (hnext : withMeta.drop infos.length = (m, account) :: rest) :
    ∀ (draws : List Nat) {db : AccountsDB}, db.FileSized →
      db.fileSize < sizeOfStorageMeta + sizeOfAccountBalance + m.dataLen.toNat →
      storeAccountsLoop forkId withMeta db draws infos = none
  | [], db, _, _ => by
    have : infos.length < withMeta.length := by
      by_contra hge
      rw [List.drop_eq_nil_of_le (Nat.le_of_not_lt hge)] at hnext
      cases hnext
    rw [storeAccountsLoop, if_pos this]
  | draw :: draws, db, hdb, hbig => by
    have : infos.length < withMeta.length := by
      by_contra hge
      rw [List.drop_eq_nil_of_le (Nat.le_of_not_lt hge)] at hnext
      cases hnext
    obtain ⟨hinfos, hdb', hsize⟩ := @storeAccountsStep_of_oversized db hdb forkId withMeta infos m
      account rest hnext hbig draw
    rw [storeAccountsLoop, if_pos this]
    cases hstep : db.storeAccountsStep forkId withMeta infos draw with
    | mk db' infos' =>
      rw [hstep] at hinfos hdb' hsize
      dsimp only at hinfos hdb' hsize ⊢
      subst hinfos
      exact storeAccountsLoop_of_oversized hnext draws hdb' (by rw [hsize]; exact hbig)

/-- The first account's meta takes the next write version. -/
theorem withMeta_cons (db : AccountsDB) (pubkey : Pubkey) (account : Account)
    (accounts : List (Pubkey × Account)) :
    ∃ rest, db.withMeta ((pubkey, account) :: accounts) =
      (⟨UInt64.ofNat db.writeVersion, pubkey,
        if account.difs = 0 then 0 else UInt64.ofNat account.data.length⟩, account) :: rest :=
  ⟨_, by rw [withMeta, List.mapIdx_cons]; rfl⟩

/-- A store whose first account cannot fit in an empty append vector never returns, whatever the
draws. -/
theorem storeAccounts_of_oversized {db : AccountsDB} (hdb : db.FileSized) (forkId : Fork)
    (pubkey : Pubkey) {account : Account} (accounts : List (Pubkey × Account))
    (hdifs : account.difs ≠ 0) (hlen : account.data.length < 2 ^ 64)
    (hbig : db.fileSize < sizeOfStorageMeta + sizeOfAccountBalance + account.data.length)
    (draws : List Nat) : db.storeAccounts forkId ((pubkey, account) :: accounts) draws = none := by
  have hdataLen : (if account.difs = 0 then (0 : UInt64) else UInt64.ofNat account.data.length).toNat =
      account.data.length := by
    rw [if_neg hdifs, UInt64.toNat_ofNat', Nat.mod_eq_of_lt hlen]
  obtain ⟨rest, hw⟩ := withMeta_cons db pubkey account accounts
  have hnext : (db.withMeta ((pubkey, account) :: accounts)).drop ([] : List AccountInfo).length =
      (⟨UInt64.ofNat db.writeVersion, pubkey,
        if account.difs = 0 then 0 else UInt64.ofNat account.data.length⟩, account) :: rest := by
    rw [hw]
    rfl
  exact storeAccountsLoop_of_oversized hnext draws hdb (by rw [hdataLen]; exact hbig)

/-- An account of one dif holding as many bytes as a new append vector. -/
def oversizedAccount : Account := ⟨1, 0, List.replicate ACCOUNT_DATA_FILE_SIZE 0, default, false⟩

theorem store_loops_on_account_larger_than_file (forkId : Fork) (pubkey : Pubkey)
    (draws : List Nat) :
    (new ACCOUNT_DATA_FILE_SIZE).store forkId [(pubkey, oversizedAccount)] draws = none := by
  have hlength : oversizedAccount.data.length = ACCOUNT_DATA_FILE_SIZE := List.length_replicate ..
  have hloop : (new ACCOUNT_DATA_FILE_SIZE).storeAccounts forkId [(pubkey, oversizedAccount)] draws =
      none := by
    refine storeAccounts_of_oversized (fun _ h => absurd h List.not_mem_nil) forkId pubkey [] ?_ ?_ ?_
      draws
    · show (1 : UInt64) ≠ 0
      decide
    · rw [hlength]
      decide
    · show ACCOUNT_DATA_FILE_SIZE < sizeOfStorageMeta + sizeOfAccountBalance + _
      rw [hlength]
      exact Nat.lt_add_of_pos_left (by decide)
  rw [store, hloop]
  rfl

end AccountsDB

end Morgan
