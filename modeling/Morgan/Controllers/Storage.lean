import Mathlib
import Morgan.Interface.Transaction
import Morgan.Runtime.SystemProgram

/-!
# The storage program

`storage_contract.rs`, `storage_instruction.rs` and `storage_processor.rs`: a storage account holds
a `StorageContract`, bincode-encoded in its data.  A replicator submits mining proofs for past
segments, one per `sha_state`; a validator advertises the slot it has reached and validates the
proofs of replicator accounts for a segment, which pushes each status into the replicator's
`reward_validations` and records the valid ones in its own `lockout_validations`, moved to its
`reward_validations` when it next advertises.  Both claim rewards for a segment from the second
keyed account, the mining pool.

The program's `HashMap`s are association lists, their iteration order a list's: no result of the
program depends on it.  Arithmetic is that of the release build: `u64` wraps.  `set_state` writes
the encoding over the front of the account's data with `serialize_into` on a byte slice, whose
writer fails with an I/O error (`GenericError`) once the slice is full, after filling it.
-/

namespace Morgan

namespace Storage

open Rust Bincode

/-- `TOTAL_VALIDATOR_REWARDS`. -/
def TOTAL_VALIDATOR_REWARDS : UInt64 := 1

/-- `TOTAL_REPLICATOR_REWARDS`. -/
def TOTAL_REPLICATOR_REWARDS : UInt64 := 1

/-- `SLOTS_PER_SEGMENT`. -/
def SLOTS_PER_SEGMENT : UInt64 := 16

/-- `DEFAULT_TICKS_PER_SLOT` of `timing.rs`. -/
def DEFAULT_TICKS_PER_SLOT : UInt64 := 8

/-- `get_segment_from_slot`. -/
def getSegmentFromSlot (slot : UInt64) : Nat := (slot / SLOTS_PER_SEGMENT).toNat

/-- `ProofStatus`. -/
inductive ProofStatus where
  | skipped
  | valid
  | notValid
  deriving DecidableEq, Repr

/-- `Proof`. -/
structure Proof where
  signature : Signature
  shaState : Hash
  deriving DecidableEq, Repr

/-- `CheckedProof`. -/
structure CheckedProof where
  proof : Proof
  status : ProofStatus
  deriving DecidableEq, Repr

/-- `StorageContract`.  The maps are keyed by segment, then by `sha_state`. -/
inductive StorageContract where
  | uninitialized
  | validatorStorage (slot : UInt64) (hash : Hash)
      (lockoutValidations rewardValidations : AssocMap Nat (AssocMap Hash ProofStatus))
  | replicatorStorage (proofs : AssocMap Nat (AssocMap Hash Proof))
      (rewardValidations : AssocMap Nat (AssocMap Hash (List ProofStatus)))
  | miningPool
  deriving DecidableEq, Repr

/-- `StorageInstruction`. -/
inductive StorageInstruction where
  | initializeMiningPool
  | initializeValidatorStorage
  | initializeReplicatorStorage
  | submitMiningProof (shaState : Hash) (slot : UInt64) (signature : Signature)
  | advertiseStorageRecentBlockhash (hash : Hash) (slot : UInt64)
  | claimStorageReward (slot : UInt64)
  | proofValidation (segment : UInt64) (proofs : List (Pubkey × List CheckedProof))
  deriving DecidableEq, Repr

/-! ## Bincode -/

def ProofStatus.index : ProofStatus → Nat
  | .skipped => 0 | .valid => 1 | .notValid => 2

def ProofStatus.deserialize : Decoder ProofStatus := do
  let tag ← u32
  match tag.toNat with
  | 0 => pure .skipped
  | 1 => pure .valid
  | 2 => pure .notValid
  | _ => failure

def ProofStatus.serialize (s : ProofStatus) : List UInt8 := encodeU32 (UInt32.ofNat s.index)

def Proof.deserialize : Decoder Proof := do
  let signature ← Signature.deserialize
  let shaState ← Hash.deserialize
  pure ⟨signature, shaState⟩

def Proof.serialize (p : Proof) : List UInt8 := p.signature.bytes.toList ++ p.shaState.bytes.toList

def CheckedProof.deserialize : Decoder CheckedProof := do
  let proof ← Proof.deserialize
  let status ← ProofStatus.deserialize
  pure ⟨proof, status⟩

def CheckedProof.serialize (p : CheckedProof) : List UInt8 := p.proof.serialize ++ p.status.serialize

/-- A segment, a `usize` key, is eight bytes. -/
def segmentKey : Decoder Nat := (·.toNat) <$> u64

def encodeSegment (n : Nat) : List UInt8 := encodeU64 (UInt64.ofNat n)

def StorageContract.deserialize : Decoder StorageContract := do
  let tag ← u32
  match tag.toNat with
  | 0 => pure .uninitialized
  | 1 => do
    let slot ← u64
    let hash ← Hash.deserialize
    let lockoutValidations ← map segmentKey (map Hash.deserialize ProofStatus.deserialize)
    let rewardValidations ← map segmentKey (map Hash.deserialize ProofStatus.deserialize)
    pure (.validatorStorage slot hash lockoutValidations rewardValidations)
  | 2 => do
    let proofs ← map segmentKey (map Hash.deserialize Proof.deserialize)
    let rewardValidations ← map segmentKey (map Hash.deserialize (vec ProofStatus.deserialize))
    pure (.replicatorStorage proofs rewardValidations)
  | 3 => pure .miningPool
  | _ => failure

def StorageContract.serialize : StorageContract → List UInt8
  | .uninitialized => encodeU32 0
  | .validatorStorage slot hash lockoutValidations rewardValidations =>
    encodeU32 1 ++ encodeU64 slot ++ hash.bytes.toList ++
      encodeMap encodeSegment (encodeMap (·.bytes.toList) ProofStatus.serialize)
        lockoutValidations ++
      encodeMap encodeSegment (encodeMap (·.bytes.toList) ProofStatus.serialize) rewardValidations
  | .replicatorStorage proofs rewardValidations =>
    encodeU32 2 ++ encodeMap encodeSegment (encodeMap (·.bytes.toList) Proof.serialize) proofs ++
      encodeMap encodeSegment (encodeMap (·.bytes.toList) (encodeVec ProofStatus.serialize))
        rewardValidations
  | .miningPool => encodeU32 3

def StorageInstruction.deserialize : Decoder StorageInstruction := do
  let tag ← u32
  match tag.toNat with
  | 0 => pure .initializeMiningPool
  | 1 => pure .initializeValidatorStorage
  | 2 => pure .initializeReplicatorStorage
  | 3 => do
    let shaState ← Hash.deserialize
    let slot ← u64
    let signature ← Signature.deserialize
    pure (.submitMiningProof shaState slot signature)
  | 4 => do
    let hash ← Hash.deserialize
    let slot ← u64
    pure (.advertiseStorageRecentBlockhash hash slot)
  | 5 => .claimStorageReward <$> u64
  | 6 => do
    let segment ← u64
    let proofs ← vec do
      let key ← Pubkey.deserialize
      let checked ← vec CheckedProof.deserialize
      pure (key, checked)
    pure (.proofValidation segment proofs)
  | _ => failure

def StorageInstruction.serialize : StorageInstruction → List UInt8
  | .initializeMiningPool => encodeU32 0
  | .initializeValidatorStorage => encodeU32 1
  | .initializeReplicatorStorage => encodeU32 2
  | .submitMiningProof shaState slot signature =>
    encodeU32 3 ++ shaState.bytes.toList ++ encodeU64 slot ++ signature.bytes.toList
  | .advertiseStorageRecentBlockhash hash slot => encodeU32 4 ++ hash.bytes.toList ++ encodeU64 slot
  | .claimStorageReward slot => encodeU32 5 ++ encodeU64 slot
  | .proofValidation segment proofs =>
    encodeU32 6 ++ encodeU64 segment ++
      encodeVec (fun e => e.1.bytes.toList ++ encodeVec CheckedProof.serialize e.2) proofs

/-! ## Account state -/

/-- `account.state()`. -/
def state (account : Account) : Outcome InstructionError StorageContract :=
  match deserialize StorageContract.deserialize account.data with
  | some contract => .ok contract
  | none => .err .invalidAccountData

/-- The data `serialize_into` leaves: the encoding over the front, cut to the data's length. -/
def writeState (account : Account) (contract : StorageContract) : Account :=
  { account with
    data := (contract.serialize ++ account.data.drop contract.serialize.length).take
      account.data.length }

/-- `account.set_state(contract)`: an encoding longer than the data fails. -/
def setState (account : Account) (contract : StorageContract) : Outcome InstructionError Account :=
  if contract.serialize.length ≤ account.data.length then .ok (writeState account contract)
  else .err .genericError

/-- The three `initialize_*`: an uninitialized account takes a contract. -/
def initializeContract (contract : StorageContract) (account : Account) :
    Outcome InstructionError Account := do
  match ← state account with
  | .uninitialized => setState account contract
  | _ => .err .accountAlreadyInitialized

/-- `initialize_mining_pool`. -/
def initializeMiningPool : Account → Outcome InstructionError Account :=
  initializeContract .miningPool

/-- `initialize_replicator_storage`. -/
def initializeReplicatorStorage : Account → Outcome InstructionError Account :=
  initializeContract (.replicatorStorage [] [])

/-- `initialize_validator_storage`. -/
def initializeValidatorStorage : Account → Outcome InstructionError Account :=
  initializeContract (.validatorStorage 0 default [] [])

/-- `submit_mining_proof`: a proof for a segment before the current one, once per `sha_state`. -/
def submitMiningProof (account : Account) (shaState : Hash) (slot : UInt64) (signature : Signature)
    (currentSlot : UInt64) : Outcome InstructionError Account := do
  match ← state account with
  | .replicatorStorage proofs rewardValidations =>
    let segmentIndex := getSegmentFromSlot slot
    let currentSegment := getSegmentFromSlot currentSlot
    if segmentIndex ≥ currentSegment then .err .invalidArgument
    else
      let segmentProofs := (proofs.get? segmentIndex).getD []
      if (segmentProofs.get? shaState).isSome then .err .invalidArgument
      else
        setState account (.replicatorStorage
          (proofs.set segmentIndex (segmentProofs.set shaState ⟨signature, shaState⟩))
          rewardValidations)
  | _ => .err .invalidArgument

/-- `advertise_storage_recent_blockhash`: a slot of a segment from the advertised one up to the
current one, exclusive; the lockout validations move to the reward validations. -/
def advertiseStorageRecentBlockhash (account : Account) (hash : Hash) (slot currentSlot : UInt64) :
    Outcome InstructionError Account := do
  match ← state account with
  | .validatorStorage stateSlot _ lockoutValidations rewardValidations =>
    let currentSegment := getSegmentFromSlot currentSlot
    let originalSegment := getSegmentFromSlot stateSlot
    let segment := getSegmentFromSlot slot
    if segment < originalSegment ∨ segment ≥ currentSegment then .err .invalidArgument
    else
      setState account
        (.validatorStorage slot hash [] (rewardValidations.extend lockoutValidations))
  | _ => .err .invalidArgument

/-- `store_validation_result`: push a status into the replicator's reward validations, for a
`sha_state` it submitted.  The account is returned as the call leaves it, also when it fails:
a failed `set_state` has filled the data. -/
def storeValidationResult (account : Account) (segment : Nat) (checkedProof : CheckedProof) :
    Account × Outcome InstructionError Unit :=
  match state account with
  | .ok (.replicatorStorage proofs rewardValidations) =>
    match proofs.get? segment with
    | none => (account, .err .invalidAccountData)
    | some segmentProofs =>
      if (segmentProofs.get? checkedProof.proof.shaState).isSome then
        let segmentValidations := (rewardValidations.get? segment).getD []
        let statuses := (segmentValidations.get? checkedProof.proof.shaState).getD []
        let contract := StorageContract.replicatorStorage proofs
          (rewardValidations.set segment (segmentValidations.set checkedProof.proof.shaState
            (statuses ++ [checkedProof.status])))
        match setState account contract with
        | .ok account => (account, .ok ())
        | _ => (writeState account contract, .err .genericError)
      else (account, .err .invalidAccountData)
  | .ok _ => (account, .err .invalidAccountData)
  | _ => (account, .err .invalidAccountData)

/-- `count_valid_proofs`. -/
def countValidProofs (proofs : List ProofStatus) : UInt64 :=
  proofs.foldl (fun num proof => if proof = .valid then num + 1 else num) 0

/-- `process_validation`: store the status, then accept the proof when its signature is the
submitted one and its status is `Valid`. -/
def processValidation (account : Account) (segmentIndex : Nat) (proof : Proof)
    (checkedProof : CheckedProof) : Account × Outcome InstructionError Unit :=
  match storeValidationResult account segmentIndex checkedProof with
  | (account, .ok ()) =>
    if proof.signature ≠ checkedProof.proof.signature ∨ checkedProof.status ≠ .valid then
      (account, .err .genericError)
    else (account, .ok ())
  | r => r

/-- The checked proofs of one replicator account, in order: each whose `sha_state` the replicator
submitted is processed, the account threaded through, and those processed without error are
kept. -/
def validateProofs (segmentIndex : Nat) (proofs : AssocMap Hash Proof) :
    Account → List CheckedProof → Account × List CheckedProof
  | account, [] => (account, [])
  | account, checkedProof :: rest =>
    match proofs.get? checkedProof.proof.shaState with
    | none => validateProofs segmentIndex proofs account rest
    | some proof =>
      let (account, r) := processValidation account segmentIndex proof checkedProof
      let (account, valid) := validateProofs segmentIndex proofs account rest
      match r with
      | .ok () => (account, checkedProof :: valid)
      | _ => (account, valid)

/-- The replicator accounts whose state is `ReplicatorStorage` with proofs for the segment, as
their indices among the keyed accounts and those proofs. -/
def accountsAndProofs (segmentIndex : Nat) (replicatorAccounts : List Account) :
    List (Nat × AssocMap Hash Proof) :=
  replicatorAccounts.zipIdx.filterMap fun (account, i) =>
    match deserialize StorageContract.deserialize account.data with
    | some (.replicatorStorage proofs _) => (proofs.get? segmentIndex).map (i, ·)
    | _ => none

/-- The iterator of `proof_validation`: the given proofs zipped with the accounts that have proofs
for the segment, each account validated in turn. -/
def validateAll (segmentIndex : Nat) :
    List Account → List (Pubkey × List CheckedProof) → List (Nat × AssocMap Hash Proof) →
      List Account × List CheckedProof
  | accounts, (_, checkedProofs) :: proofs, (i, accountProofs) :: rest =>
    match accounts[i]? with
    | some account =>
      let (account, valid) := validateProofs segmentIndex accountProofs account checkedProofs
      let (accounts, valid') := validateAll segmentIndex (accounts.set i account) proofs rest
      (accounts, valid ++ valid')
    | none => validateAll segmentIndex accounts proofs rest
  | accounts, _, _ => (accounts, [])

/-- `proof_validation`: the validator's segment must be reached, and every replicator account with
proofs for the segment must have its entry in `proofs`; the valid proofs are recorded as lockout
validations. -/
def proofValidation (account : Account) (segment : UInt64)
    (proofs : List (Pubkey × List CheckedProof)) (replicatorAccounts : List Account) :
    Outcome InstructionError (Account × List Account) := do
  match ← state account with
  | .validatorStorage stateSlot hash lockoutValidations rewardValidations =>
    let segmentIndex := segment.toNat
    let stateSegment := getSegmentFromSlot stateSlot
    if segmentIndex > stateSegment then .err .invalidArgument
    else
      let accountsAndProofs := accountsAndProofs segmentIndex replicatorAccounts
      if accountsAndProofs.length ≠ proofs.length then .err .invalidArgument
      else
        let (replicatorAccounts, validProofs) :=
          validateAll segmentIndex replicatorAccounts proofs accountsAndProofs
        let lockoutValidations := validProofs.foldl (fun lockout proof =>
          lockout.set segmentIndex (((lockout.get? segmentIndex).getD []).set
            proof.proof.shaState proof.status)) lockoutValidations
        let account ← setState account
          (.validatorStorage stateSlot hash lockoutValidations rewardValidations)
        pure (account, replicatorAccounts)
  | _ => .err .invalidArgument

/-- `mining_pool.account.difs -= reward`. -/
def debit (miningPool : KeyedAccount) (reward : UInt64) : KeyedAccount :=
  { miningPool with account := { miningPool.account with difs := miningPool.account.difs - reward } }

/-- `claim_storage_reward`: a validator claims one reward per valid proof it recorded for a segment
before its advertised one, a replicator the number of statuses of a segment before the current
one when they are all `Valid`, and nothing otherwise.  The reward leaves `mining_pool`. -/
def claimStorageReward (account : Account) (miningPool : KeyedAccount) (slot currentSlot : UInt64) :
    Outcome InstructionError (Account × KeyedAccount) := do
  match ← state account with
  | .validatorStorage stateSlot hash lockoutValidations rewardValidations =>
    let stateSegment := getSegmentFromSlot stateSlot
    let claimSegment := getSegmentFromSlot slot
    match rewardValidations.get? claimSegment with
    | some segmentValidations =>
      if stateSegment ≤ claimSegment then .err .invalidArgument
      else
        let numValidations := countValidProofs (segmentValidations.map Prod.snd)
        let reward := TOTAL_VALIDATOR_REWARDS * numValidations
        let account ← setState { account with difs := account.difs + reward }
          (.validatorStorage stateSlot hash lockoutValidations
            (rewardValidations.erase claimSegment))
        pure (account, debit miningPool reward)
    | none => .err .invalidArgument
  | .replicatorStorage proofs rewardValidations =>
    let claimIndex := getSegmentFromSlot currentSlot
    let claimSegment := getSegmentFromSlot slot
    match rewardValidations.get? claimSegment, proofs.get? claimSegment with
    | some segmentValidations, some _ =>
      if claimIndex ≤ claimSegment then .err .invalidArgument
      else
        -- every `sha_state` with a status loses its proof
        let proofs := proofs.modify claimSegment fun segmentProofs =>
          segmentProofs.filter fun e =>
            !(segmentValidations.any fun v => v.1 == e.1 && !v.2.isEmpty)
        let checkedProofs := segmentValidations.flatMap Prod.snd
        let totalProofs := UInt64.ofNat checkedProofs.length
        let numValidations := countValidProofs checkedProofs
        -- `num_validations / total_proofs` panics on a division by zero
        if totalProofs = 0 then .panic
        else
          let reward := numValidations * TOTAL_REPLICATOR_REWARDS * (numValidations / totalProofs)
          let account ← setState { account with difs := account.difs + reward }
            (.replicatorStorage proofs (rewardValidations.erase claimSegment))
          pure (account, debit miningPool reward)
    | _, _ => .err .invalidArgument
  | _ => .err .invalidArgument

/-! ## The processor -/

/-- Replace the account of a keyed account. -/
def withAccount (k : KeyedAccount) (account : Account) : KeyedAccount := { k with account }

/-- `process_instruction` of the storage program.  `keyed_accounts[0]` is the storage account the
instruction acts on; `split_at_mut(1)` panics when there is none. -/
def processInstruction : ProcessInstruction := fun _ keyedAccounts data tickHeight =>
  match keyedAccounts with
  | [] => .panic
  | me :: rest =>
    let meUnsigned := me.signerKey.isNone
    let currentSlot := tickHeight / DEFAULT_TICKS_PER_SLOT
    match deserialize StorageInstruction.deserialize data with
    | none => .err .invalidInstructionData
    | some .initializeMiningPool =>
      if !rest.isEmpty then .err .invalidArgument
      else (fun a => [withAccount me a]) <$> initializeMiningPool me.account
    | some .initializeReplicatorStorage =>
      if !rest.isEmpty then .err .invalidArgument
      else (fun a => [withAccount me a]) <$> initializeReplicatorStorage me.account
    | some .initializeValidatorStorage =>
      if !rest.isEmpty then .err .invalidArgument
      else (fun a => [withAccount me a]) <$> initializeValidatorStorage me.account
    | some (.submitMiningProof shaState slot signature) =>
      if meUnsigned || !rest.isEmpty then .err .invalidArgument
      else (fun a => [withAccount me a]) <$>
        submitMiningProof me.account shaState slot signature currentSlot
    | some (.advertiseStorageRecentBlockhash hash slot) =>
      if meUnsigned || !rest.isEmpty then .err .invalidArgument
      else (fun a => [withAccount me a]) <$>
        advertiseStorageRecentBlockhash me.account hash slot currentSlot
    | some (.claimStorageReward slot) =>
      match rest with
      | [miningPool] =>
        (fun r => [withAccount me r.1, r.2]) <$>
          claimStorageReward me.account miningPool slot currentSlot
      | _ => .err .invalidArgument
    | some (.proofValidation segment proofs) =>
      if meUnsigned || rest.isEmpty then .err .invalidArgument
      else (fun r => withAccount me r.1 :: List.zipWith withAccount rest r.2) <$>
        proofValidation me.account segment proofs (rest.map (·.account))

end Storage

end Morgan
