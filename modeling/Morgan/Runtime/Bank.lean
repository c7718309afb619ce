import Morgan.Runtime.Accounts
import Morgan.Runtime.StatusCache

/-!
# Processing a batch of transactions in a bank

`bank.rs`: `process_transactions` locks the batch's accounts, checks each transaction's account
indexes, blockhash age and signature, loads the accounts of the transactions that pass, runs each
message, stores the accounts of the transactions that succeeded, records the statuses of the
committed ones, charges the fee of a transaction that failed in an instruction, pays the fees to
the collector, and unlocks.

The accounts database and the status cache are shared by all banks (`Shared`).  The stakes cache
that `store_stakes` keeps only feeds the epoch stakes, and the transaction counters only feed
metrics; neither is modelled.
-/

namespace Morgan

open Rust

/-- What the banks of a validator share. -/
structure Shared where
  accountsDb : AccountsDb
  statusCache : StatusCache TxResult

/-- `Bank`, with the fields the modelled functions read. -/
structure Bank where
  slot : Fork
  parent : Option Fork
  ancestors : Ancestors
  blockhashQueue : BlockhashQueue
  tickHeight : UInt64
  ticksPerSlot : UInt64
  maxTickHeight : UInt64
  collectorId : Pubkey
  feeCalculator : FeeCalculator
  accountLocks : List Pubkey
  frozen : Bool
  messageProcessor : MessageProcessor

/-- `GenesisBlock`, with the fields `process_genesis_block` reads; `hash` is
`genesis_block.hash()`, the hash of its serialization. -/
structure GenesisBlock where
  accounts : List (Pubkey × Account)
  bootstrapLeaderPubkey : Pubkey
  feeCalculator : FeeCalculator
  nativeInstructionProcessors : List (String × Pubkey)
  ticksPerSlot : UInt64
  hash : Hash

/-- `bpf_loader::id()`. -/
def BPF_LOADER_ID : Pubkey :=
  ⟨#v[2, 168, 246, 145, 78, 136, 161, 107, 189, 35, 149, 133, 95, 100, 4, 217, 180, 244, 86, 183,
    130, 27, 176, 20, 87, 73, 66, 140, 0, 0, 0, 0]⟩

/-- `morgan_vote_api::id()`. -/
def VOTE_PROGRAM_ID : Pubkey :=
  ⟨#v[7, 97, 72, 29, 53, 116, 116, 187, 124, 77, 118, 36, 235, 211, 189, 179, 216, 53, 94, 115,
    209, 16, 67, 252, 13, 163, 83, 128, 0, 0, 0, 0]⟩

/-- The native programs every bank registers, before those of the genesis block. -/
def NATIVE_PROGRAMS : List (String × Pubkey) :=
  [("morgan_system_program", SYSTEM_PROGRAM_ID), ("morgan_bpf_loader", BPF_LOADER_ID),
    ("morgan_vote_controller", VOTE_PROGRAM_ID)]

namespace Bank

variable (libraries : NativeLoader.Libraries) (draw : Fin 12)

/-- `can_commit`. -/
def canCommit : TxResult → Bool
  | .ok () => true
  | .error (.instructionError _ _) => true
  | .error _ => false

/-- `get_account`: `load_slow` drops an account without difs. -/
def getAccount (s : Shared) (bank : Bank) (key : Pubkey) : Option Account :=
  ((s.accountsDb.load bank.ancestors key).filter (·.1.difs ≠ 0)).map (·.1)

/-- `store`. -/
def store (s : Shared) (bank : Bank) (key : Pubkey) (account : Account) : Shared :=
  { s with accountsDb := s.accountsDb.store bank.slot [(key, account)] }

/-- `withdraw`. -/
def withdraw (s : Shared) (bank : Bank) (key : Pubkey) (difs : UInt64) :
    Except TransactionError Shared :=
  match getAccount s bank key with
  | some account =>
    if difs > account.difs then .error .insufficientFundsForFee
    else .ok (store s bank key { account with difs := account.difs - difs })
  | none => .error .accountNotFound

/-- `deposit`. -/
def deposit (s : Shared) (bank : Bank) (key : Pubkey) (difs : UInt64) : Shared :=
  let account := (getAccount s bank key).getD default
  store s bank key { account with difs := account.difs + difs }

/-- `register_native_instruction_processor`. -/
def registerNativeInstructionProcessor (s : Shared) (bank : Bank) (name : String)
    (programId : Pubkey) : Shared :=
  store s bank programId (createLoadableAccount name.toUTF8.toList)

/-- `Bank::new`: a bank at slot 0 over a fresh database and status cache, after
`process_genesis_block`. -/
def new (genesis : GenesisBlock) : Shared × Bank :=
  let bank : Bank :=
    { slot := 0, parent := none, ancestors := [(0, 0)],
      blockhashQueue := (BlockhashQueue.new MAX_RECENT_BLOCKHASHES).genesisHash genesis.hash,
      tickHeight := 0, ticksPerSlot := genesis.ticksPerSlot,
      maxTickHeight := genesis.ticksPerSlot - 1, collectorId := genesis.bootstrapLeaderPubkey,
      feeCalculator := genesis.feeCalculator, accountLocks := [], frozen := false,
      messageProcessor := default }
  let s : Shared := ⟨AccountsDb.empty, StatusCache.empty⟩
  let s := genesis.accounts.foldl (fun s e => store s bank e.1 e.2) s
  let s := (NATIVE_PROGRAMS ++ genesis.nativeInstructionProcessors).foldl
    (fun s e => registerNativeInstructionProcessor s bank e.1 e.2) s
  (s, bank)

/-- `check_refs`. -/
def checkRefs (txs : List Transaction) (lockResults : List TxResult) : List TxResult :=
  (txs.zip lockResults).map fun e =>
    if e.2.isOk ∧ !e.1.verifyRefs then .error .invalidAccountIndex else e.2

/-- `check_age`. -/
def checkAge (bank : Bank) (txs : List Transaction) (lockResults : List TxResult) (maxAge : Nat) :
    List TxResult :=
  (txs.zip lockResults).map fun e =>
    if e.2.isOk ∧ !bank.blockhashQueue.checkHashAge e.1.message.recentBlockhash maxAge then
      .error .blockhashNotFound
    else e.2

/-- `check_signatures`. -/
def checkSignatures (s : Shared) (bank : Bank) (txs : List Transaction)
    (lockResults : List TxResult) : List TxResult :=
  (txs.zip lockResults).map fun e =>
    match e.1.signatures with
    | [] => e.2
    | sig :: _ =>
      if e.2.isOk ∧
          (s.statusCache.getSignatureStatus sig e.1.message.recentBlockhash bank.ancestors).isSome
      then .error .duplicateSignature
      else e.2

/-- `check_transactions`. -/
def checkTransactions (s : Shared) (bank : Bank) (txs : List Transaction)
    (lockResults : List TxResult) (maxAge : Nat) : List TxResult :=
  checkSignatures s bank txs (checkAge bank txs (checkRefs txs lockResults) maxAge)

/-- Run one loaded transaction's message; the accounts it left are stored when it succeeded. -/
def execute (bank : Bank) (tx : Transaction) :
    LoadResult → Option (LoadResult × TxResult)
  | .error e => some (.error e, .error e)
  | .ok (accounts, loaders) =>
    match bank.messageProcessor.processMessage libraries tx.message loaders accounts
        bank.tickHeight with
    | .ok accounts => some (.ok (accounts, loaders), .ok ())
    | .err e => some (.ok (accounts, loaders), .error e)
    | .panic => none

/-- `load_and_execute_transactions`: the loaded accounts as the messages left them, and the
result of each transaction. -/
def loadAndExecuteTransactions (s : Shared) (bank : Bank) (txs : List Transaction)
    (lockResults : List TxResult) (maxAge : Nat) : Option (List LoadResult × List TxResult) := do
  let sigResults := checkTransactions s bank txs lockResults maxAge
  let loaded ← Accounts.loadAccounts s.accountsDb bank.ancestors txs sigResults bank.feeCalculator
  let executed ← (loaded.zip txs).mapM fun e => execute libraries bank e.2 e.1
  pure (executed.map (·.1), executed.map (·.2))

/-- `update_transaction_statuses`. -/
def updateTransactionStatuses (s : Shared) (bank : Bank) (txs : List Transaction)
    (res : List TxResult) : Shared :=
  { s with statusCache := (txs.zip res).foldl (fun sc e =>
      match e.1.signatures with
      | sig :: _ =>
        if canCommit e.2 then sc.insert e.1.message.recentBlockhash sig bank.slot e.2 draw else sc
      | [] => sc) s.statusCache }

/-- The loop of `filter_program_errors_and_collect_fee`: each transaction's result, and the sum
of the fees so far in wrapping `u64`. -/
def collectFees (bank : Bank) :
    Shared → List (Transaction × TxResult) → UInt64 → Option (Shared × List TxResult × UInt64)
  | s, [], fees => some (s, [], fees)
  | s, (tx, res) :: rest, fees =>
    let fee := bank.feeCalculator.calculateFee tx.message
    match res with
    | .error (.instructionError _ _) => do
      -- the fee taken at load time is lost with the accounts, so it is withdrawn again
      let payer ← tx.message.accountKeys[0]?
      match withdraw s bank payer fee with
      | .error e => do
        let (s, results, fees) ← collectFees bank s rest fees
        pure (s, .error e :: results, fees)
      | .ok s => do
        let (s, results, fees) ← collectFees bank s rest (fees + fee)
        pure (s, .ok () :: results, fees)
    | .ok () => do
      let (s, results, fees) ← collectFees bank s rest (fees + fee)
      pure (s, .ok () :: results, fees)
    | .error e => do
      let (s, results, fees) ← collectFees bank s rest fees
      pure (s, .error e :: results, fees)

/-- `filter_program_errors_and_collect_fee`. -/
def filterProgramErrorsAndCollectFee (s : Shared) (bank : Bank) (txs : List Transaction)
    (executed : List TxResult) : Option (Shared × List TxResult) := do
  let (s, results, fees) ← collectFees bank s (txs.zip executed) 0
  pure (deposit s bank bank.collectorId fees, results)

/-- `commit_transactions`. -/
def commitTransactions (s : Shared) (bank : Bank) (txs : List Transaction)
    (loadedAccounts : List LoadResult) (executed : List TxResult) :
    Option (Shared × List TxResult) := do
  let accountsDb ← Accounts.storeAccounts s.accountsDb bank.slot txs executed loadedAccounts
  let s := updateTransactionStatuses draw { s with accountsDb } bank txs executed
  filterProgramErrorsAndCollectFee s bank txs executed

/-- `load_execute_and_commit_transactions`. -/
def loadExecuteAndCommitTransactions (s : Shared) (bank : Bank) (txs : List Transaction)
    (lockResults : List TxResult) (maxAge : Nat) : Option (Shared × List TxResult) := do
  let (loadedAccounts, executed) ← loadAndExecuteTransactions libraries s bank txs lockResults maxAge
  commitTransactions draw s bank txs loadedAccounts executed

/-- `process_transactions`: the locks are released when the lock results are dropped. -/
def processTransactions (s : Shared) (bank : Bank) (txs : List Transaction) :
    Option (Shared × Bank × List TxResult) := do
  let (lockResults, locks) ← Accounts.lockAccounts bank.accountLocks txs
  let bank := { bank with accountLocks := locks }
  let (s, results) ←
    loadExecuteAndCommitTransactions libraries draw s bank txs lockResults MAX_RECENT_BLOCKHASHES
  pure (s, { bank with accountLocks := Accounts.unlockAccounts locks txs lockResults }, results)

end Bank

end Morgan
