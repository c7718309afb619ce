import Mathlib
import Morgan.Controllers.Storage
import Morgan.Runtime.MessageProcessor

/-!
# Who pays storage rewards

A claim debits the second keyed account, the mining pool, by a reward that the claimant's state
alone decides; the pool's own state is never read (`claimStorageReward_debits_any_pool`).  So any
account of the storage program pays, and a reward larger than its difs wraps.  Rewards are counted
per validation, not per proof: a proof validated twice is paid twice to the replicator, and to the
validator after each advertisement (`rewards_exceed_distinct_proofs`).
-/

namespace Morgan

namespace Storage

open Rust Bincode

/-! ## The mining pool is not checked -/

/-- What a claim does to the mining pool: its difs fall by a reward that the claimant's account
and the slots decide; with any other account as the pool, the claim returns the same account and
debits the other by the same reward. -/
theorem claimStorageReward_debits_any_pool {account account' : Account}
    {miningPool miningPool' : KeyedAccount} {slot currentSlot : UInt64}
    (h : claimStorageReward account miningPool slot currentSlot = .ok (account', miningPool')) :
    ∃ reward, miningPool' = debit miningPool reward ∧ ∀ other : KeyedAccount,
      claimStorageReward account other slot currentSlot = .ok (account', debit other reward) := by
  unfold claimStorageReward at h ⊢
  obtain ⟨contract, hstate, h⟩ := Outcome.bind_eq_ok.1 h
  simp only [hstate, Outcome.ok_bind]
  cases contract with
  | validatorStorage stateSlot hash lockoutValidations rewardValidations =>
    simp only at h ⊢
    split at h
    · split_ifs at h ⊢
      obtain ⟨a, hset, h⟩ := Outcome.bind_eq_ok.1 h
      obtain ⟨rfl, rfl⟩ := Prod.mk.inj (Outcome.ok.inj h)
      exact ⟨_, rfl, fun other => by rw [hset]; rfl⟩
    · cases h
  | replicatorStorage proofs rewardValidations =>
    simp only at h ⊢
    split at h
    · split_ifs at h ⊢
      obtain ⟨a, hset, h⟩ := Outcome.bind_eq_ok.1 h
      obtain ⟨rfl, rfl⟩ := Prod.mk.inj (Outcome.ok.inj h)
      exact ⟨_, rfl, fun other => by rw [hset]; rfl⟩
    · cases h
  | uninitialized => cases h
  | miningPool => cases h

/-! ## Calls on a world of accounts -/

/-- A call of the storage program: the keys of its keyed accounts, with whether each signed, the
instruction and the tick height. -/
structure StorageCall where
  keys : List (Pubkey × Bool)
  instruction : StorageInstruction
  tickHeight : UInt64

/-- `STORAGE_PROGRAM_ID`, the program's key. -/
def STORAGE_PROGRAM_ID : Pubkey :=
  ⟨#v[6, 162, 25, 123, 127, 68, 233, 59, 131, 151, 21, 152, 162, 120, 90, 37, 154, 88, 86, 5,
    156, 221, 182, 201, 142, 103, 151, 112, 0, 0, 0, 0]⟩

/-- Run a call on a world of accounts: look up its keyed accounts, run the program on the
instruction's encoding, make the runtime's checks of `execute_instruction` and write back the
accounts; `none` when a key is missing or the call is not accepted. -/
def StorageCall.run (world : AssocMap Pubkey Account) (call : StorageCall) :
    Option (AssocMap Pubkey Account) := do
  let keyedAccounts ← call.keys.mapM fun (key, isSigner) =>
    (world.get? key).map fun account => (⟨key, isSigner, account⟩ : KeyedAccount)
  let checked : Outcome InstructionError (List KeyedAccount) := do
    let post ← processInstruction STORAGE_PROGRAM_ID keyedAccounts call.instruction.serialize
      call.tickHeight
    (keyedAccounts.zip post).forM fun e =>
      verifyInstruction STORAGE_PROGRAM_ID e.1.account.owner e.1.account.difs e.1.account.data
        e.2.account
    if sumDifs (keyedAccounts.map (·.account)) ≠ sumDifs (post.map (·.account)) then
      .err .unbalancedInstruction
    else pure post
  match checked with
  | .ok post => some (post.foldl (fun w k => w.set k.key k.account) world)
  | _ => none

/-- Run calls one after another, each accepted. -/
def runCalls (world : AssocMap Pubkey Account) (calls : List StorageCall) :
    Option (AssocMap Pubkey Account) :=
  calls.foldlM StorageCall.run world

/-- The difs of an account of a world. -/
def difsOf (world : AssocMap Pubkey Account) (key : Pubkey) : Option UInt64 :=
  (world.get? key).map (·.difs)

/-- The contract an account of a world holds. -/
def contractOf (world : AssocMap Pubkey Account) (key : Pubkey) : Option StorageContract :=
  (world.get? key).bind fun account => deserialize StorageContract.deserialize account.data

def validatorKey : Pubkey := ⟨Vector.replicate 32 1⟩

def replicatorKey : Pubkey := ⟨Vector.replicate 32 2⟩

def otherValidatorKey : Pubkey := ⟨Vector.replicate 32 3⟩

/-- A validator's storage account, a replicator's and a second validator's, each with 1 dif and
zeroed data, owned by the storage program, as the system program creates them. -/
def rewardWorld : AssocMap Pubkey Account :=
  [(validatorKey, ⟨1, 0, List.replicate 120 0, STORAGE_PROGRAM_ID, false⟩),
   (replicatorKey, ⟨1, 0, List.replicate 240 0, STORAGE_PROGRAM_ID, false⟩),
   (otherValidatorKey, ⟨1, 0, List.replicate 64 0, STORAGE_PROGRAM_ID, false⟩)]

/-- One proof of the replicator, for segment 0 at the current segment 2: the validator validates
it, advertises a slot of segment 1 and claims, twice over, and then the replicator claims; every
claim names the second validator's account as the mining pool. -/
def rewardCalls : List StorageCall :=
  let shaState : Hash := ⟨Vector.replicate 32 7⟩
  let signature : Signature := ⟨Vector.replicate 64 9⟩
  let validate : StorageCall := ⟨[(validatorKey, true), (replicatorKey, false)],
    .proofValidation 0 [(replicatorKey, [⟨⟨signature, shaState⟩, .valid⟩])], 256⟩
  let advertise : StorageCall :=
    ⟨[(validatorKey, true)], .advertiseStorageRecentBlockhash default 16, 256⟩
  let claim (key : Pubkey) : StorageCall :=
    ⟨[(key, false), (otherValidatorKey, false)], .claimStorageReward 0, 256⟩
  [⟨[(validatorKey, false)], .initializeValidatorStorage, 256⟩,
   ⟨[(replicatorKey, false)], .initializeReplicatorStorage, 256⟩,
   ⟨[(otherValidatorKey, false)], .initializeValidatorStorage, 256⟩,
   ⟨[(replicatorKey, true)], .submitMiningProof shaState 0 signature, 256⟩,
   validate, advertise, claim validatorKey,
   validate, advertise, claim validatorKey,
   claim replicatorKey]

/-- Every call is accepted, by the program and by the runtime's checks.  The validator and the replicator each gain 2 difs for their one
proof, and the second validator's account, never a mining pool, pays all 4 out of its 1 dif. -/
theorem rewards_overpay_from_any_account :
    (runCalls rewardWorld rewardCalls).map (fun w =>
        (contractOf w otherValidatorKey, difsOf w otherValidatorKey, difsOf w validatorKey,
          difsOf w replicatorKey)) =
      some (some (.validatorStorage 0 default [] []), some (1 - 4), some 3, some 3) := by
  decide +kernel

end Storage

end Morgan
