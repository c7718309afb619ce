import Morgan.Runtime.AccountsDb
import Morgan.Runtime.MessageProcessor

/-!
# Locking, loading and storing the accounts of transactions

`accounts.rs`: a bank locks the keys a batch writes, loads each transaction's accounts from the
database as of its ancestors, and stores them back once the batch has run.

`lock_accounts` locks every key but the trailing `num_credit_only_unsigned_accounts`.
`load_tx_accounts` loads every key that is not a program id of the message, in order, and takes
the fee from the first of them; `load_loaders` loads each instruction's loader chain.
`store_accounts` writes the loaded accounts of each transaction that succeeded back under the
message's keys, paired in order.

A parent bank's record locks only make `lock_account` wait until the parent has released them, so
they do not change what it returns; the model leaves them out.
-/

namespace Morgan

open Rust

/-- `Result<()>`: the result of a transaction. -/
abbrev TxResult := Except TransactionError Unit

/-- `InstructionAccounts`. -/
abbrev InstructionAccounts := List Account

/-- `InstructionLoaders`. -/
abbrev InstructionLoaders := List (List (Pubkey × Account))

/-- What `load_accounts` returns for a transaction. -/
abbrev LoadResult := Except TransactionError (InstructionAccounts × InstructionLoaders)

namespace Accounts

/-- The keys `lock_accounts` locks, `&account_keys[..len - num_credit_only_unsigned_accounts]`;
the subtraction below zero panics. -/
def lockedKeys (message : Message) : Option (List Pubkey) :=
  let n := message.header.numCreditOnlyUnsignedAccounts.toNat
  if n ≤ message.accountKeys.length then
    some (message.accountKeys.take (message.accountKeys.length - n))
  else none

/-- `lock_account`: fails when a key is locked, and locks every key otherwise. -/
def lockAccount (forkLocks : List Pubkey) (keys : List Pubkey) : TxResult × List Pubkey :=
  if keys.any (· ∈ forkLocks) then (.error .accountInUse, forkLocks)
  else (.ok (), keys.foldl (fun locks k => locks.insert k) forkLocks)

/-- `lock_accounts`: one result per transaction, in order. -/
def lockAccounts : List Pubkey → List Transaction → Option (List TxResult × List Pubkey)
  | locks, [] => some ([], locks)
  | locks, tx :: rest => do
    let keys ← lockedKeys tx.message
    let (result, locks) := lockAccount locks keys
    let (results, locks) ← lockAccounts locks rest
    pure (result :: results, locks)

theorem lockAccounts_nil (locks : List Pubkey) : lockAccounts locks [] = some ([], locks) := rfl

theorem lockAccounts_cons (locks : List Pubkey) (tx : Transaction) (rest : List Transaction) :
    lockAccounts locks (tx :: rest) = (lockedKeys tx.message).bind fun keys =>
      (lockAccounts (lockAccount locks keys).2 rest).bind fun r =>
        some ((lockAccount locks keys).1 :: r.1, r.2) := rfl

/-- `unlock_account`: every key of the message, unless locking failed. -/
def unlockAccount (tx : Transaction) (result : TxResult) (locks : List Pubkey) : List Pubkey :=
  match result with
  | .error .accountInUse => locks
  | _ => locks.filter (· ∉ tx.message.accountKeys)

/-- `unlock_accounts`. -/
def unlockAccounts (locks : List Pubkey) (txs : List Transaction) (results : List TxResult) :
    List Pubkey :=
  (txs.zip results).foldl (fun locks e => unlockAccount e.1 e.2 locks) locks

variable (db : AccountsDb) (ancestors : Ancestors)

/-- The account of a key as a transaction loads it: the default account when there is none. -/
def loadOrDefault (key : Pubkey) : Account := ((db.load ancestors key).map (·.1)).getD default

/-- `load_tx_accounts`. -/
def loadTxAccounts (tx : Transaction) (fee : UInt64) : Outcome TransactionError InstructionAccounts :=
  let message := tx.message
  if tx.signatures.isEmpty ∧ fee ≠ 0 then .err .missingSignatureForFee
  else if hasDuplicates message.accountKeys then .err .accountLoadedTwice
  else do
    -- `program_ids()` is computed, and may panic, once for each key
    let calledKeys ← Outcome.ofOption <| message.accountKeys.filterMapM fun key => do
      let programIds ← message.programIds
      pure (if key ∈ programIds then none else some key)
    match calledKeys.map (loadOrDefault db ancestors) with
    | [] => .err .accountNotFound
    | payer :: rest =>
      if payer.difs = 0 then .err .accountNotFound
      else if payer.owner ≠ SYSTEM_PROGRAM_ID then .err .invalidAccountForFee
      else if payer.difs < fee then .err .insufficientFundsForFee
      else pure ({ payer with difs := payer.difs - fee } :: rest)

/-- The loop of `load_executable_accounts`, with `remaining` the depth left of five. -/
def loadExecutableAccountsFrom :
    Nat → Pubkey → List (Pubkey × Account) → Except TransactionError (List (Pubkey × Account))
  | remaining, programId, accounts =>
    if programId = NATIVE_LOADER_ID then .ok accounts
    else
      match remaining with
      | 0 => .error .callChainTooDeep
      | remaining + 1 =>
        match db.load ancestors programId with
        | none => .error .programAccountNotFound
        | some (program, _) =>
          if !program.executable ∨ program.owner = default then .error .accountNotFound
          else loadExecutableAccountsFrom remaining program.owner ((program.owner, program) :: accounts)

/-- `load_executable_accounts`: the loader chain of a program, the native loader's end first. -/
def loadExecutableAccounts (programId : Pubkey) : Except TransactionError (List (Pubkey × Account)) :=
  loadExecutableAccountsFrom db ancestors 5 programId []

/-- `load_loaders`. -/
def loadLoaders (tx : Transaction) : Except TransactionError InstructionLoaders :=
  tx.message.instructions.mapM fun ix =>
    match tx.message.accountKeys[ix.programIdsIndex.toNat]? with
    | none => .error .accountNotFound
    | some programId => loadExecutableAccounts db ancestors programId

/-- `load_accounts`: a panic in any transaction ends the call. -/
def loadAccounts (txs : List Transaction) (lockResults : List TxResult)
    (feeCalculator : FeeCalculator) : Option (List LoadResult) :=
  (txs.zip lockResults).mapM fun e =>
    match e.2 with
    | .error err => some (.error err)
    | .ok () => Outcome.result do
      let accounts ← loadTxAccounts db ancestors e.1 (feeCalculator.calculateFee e.1.message)
      let loaders ← Outcome.ofExcept (loadLoaders db ancestors e.1)
      pure (accounts, loaders)

end Accounts

namespace Accounts

/-- The pairs `store_accounts` writes, from the transaction at `i` on; indexing `res` or `txs` past
its end panics. -/
def storedPairs (txs : List Transaction) (res : List TxResult) :
    List LoadResult → Nat → Option (List (Pubkey × Account))
  | [], _ => some []
  | raccs :: rest, i => do
    let r ← res[i]?
    let pairs ← match r, raccs with
      | .ok (), .ok (accounts, _) => do
        let tx ← txs[i]?
        pure (tx.message.accountKeys.zip accounts)
      | _, _ => pure []
    let more ← storedPairs txs res rest (i + 1)
    pure (pairs ++ more)

/-- `store_accounts`. -/
def storeAccounts (db : AccountsDb) (fork : Fork) (txs : List Transaction) (res : List TxResult)
    (loaded : List LoadResult) : Option AccountsDb := do
  let accounts ← storedPairs txs res loaded 0
  pure (db.store fork accounts)

end Accounts

end Morgan
