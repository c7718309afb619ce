import Morgan.Lib.Binary64
import Morgan.Controllers.VoteState
import Morgan.Runtime.SystemProgram

/-!
# The stake program

`stake_state.rs` and `stake_instruction.rs`: a stake account holds a `StakeState`, bincode-encoded
in its data.  A delegate account is delegated to a vote account, whose key it keeps with the vote
credits it has observed; a mining pool pays the rewards.  `redeem_vote_credits` pays a delegate
account, and its vote account, for the credits the vote account earned since the credits
observed: `calculate_rewards` computes the reward in `f64` and splits it with the vote state's
`commission_split`.

The rewards are computed with `Rust.F64`, exact rational values rounded to the nearest double.
Arithmetic on difs is that of the release build: `u64` wraps.  `create_delegate_stake_account`
and the readers `StakeState::from` and `voter_pubkey_from`, which only the bank's stakes cache
uses, are not modelled.
-/

namespace Morgan

open Rust Bincode

/-- `VoteState::commission_split`: the voter's portion, the staker's and whether the reward was
split; a commission of `0` leaves all to the staker and one of `u32::MAX` all to the voter. -/
def VoteState.commissionSplit (s : VoteState) (on : F64) : F64 × F64 × Bool :=
  if s.commission = 0 then (F64.zero, on, false)
  else if s.commission = 0xFFFFFFFF then (on, F64.zero, false)
  else
    let mine := on * F64.ofNat s.commission.toNat / F64.ofNat 0xFFFFFFFF
    (mine, on - mine, true)

namespace Stake

/-- `STAKE_PROGRAM_ID`, the program's key. -/
def STAKE_PROGRAM_ID : Pubkey :=
  ⟨#v[6, 161, 216, 23, 145, 55, 84, 42, 152, 52, 55, 189, 254, 42, 122, 178, 85, 127, 83, 92, 138,
    120, 114, 43, 104, 164, 157, 192, 0, 0, 0, 0]⟩

/-- `StakeState`. -/
inductive StakeState where
  | uninitialized
  | delegate (voterPubkey : Pubkey) (creditsObserved : UInt64)
  | miningPool
  deriving DecidableEq, Repr

/-- `StakeInstruction`. -/
inductive StakeInstruction where
  | initializeDelegate
  | initializeMiningPool
  | delegateStake
  | redeemVoteCredits
  deriving DecidableEq, Repr

def StakeState.deserialize : Decoder StakeState := do
  let tag ← u32
  match tag.toNat with
  | 0 => pure .uninitialized
  | 1 => do
    let voterPubkey ← Pubkey.deserialize
    let creditsObserved ← u64
    pure (.delegate voterPubkey creditsObserved)
  | 2 => pure .miningPool
  | _ => failure

def StakeState.serialize : StakeState → List UInt8
  | .uninitialized => encodeU32 0
  | .delegate voterPubkey creditsObserved =>
    encodeU32 1 ++ voterPubkey.bytes.toList ++ encodeU64 creditsObserved
  | .miningPool => encodeU32 2

def StakeInstruction.deserialize : Decoder StakeInstruction := do
  let tag ← u32
  match tag.toNat with
  | 0 => pure .initializeDelegate
  | 1 => pure .initializeMiningPool
  | 2 => pure .delegateStake
  | 3 => pure .redeemVoteCredits
  | _ => failure

def StakeInstruction.serialize : StakeInstruction → List UInt8
  | .initializeDelegate => encodeU32 0
  | .initializeMiningPool => encodeU32 1
  | .delegateStake => encodeU32 2
  | .redeemVoteCredits => encodeU32 3

/-! ## Rewards -/

/-- `TICKS_PER_SECOND`. -/
def TICKS_PER_SECOND : F64 := F64.ofNat 10

/-- `TICKS_PER_SLOT`. -/
def TICKS_PER_SLOT : F64 := F64.ofNat 8

/-- `CREDITS_PER_YEAR`: seconds a year times ticks a second over ticks a slot. -/
def CREDITS_PER_YEAR : F64 :=
  F64.ofNat 365 * F64.ofNat 24 * F64.ofNat 3600 * TICKS_PER_SECOND / TICKS_PER_SLOT

/-- `STAKE_REWARD_TARGET_RATE`, the literal `0.20`. -/
def STAKE_REWARD_TARGET_RATE : F64 := F64.ofRat (1 / 5)

/-- `StakeState::calculate_rewards`: the voter's and the staker's rewards for the credits earned
since `credits_observed`, with a stake of `stake`; `none` when there are no new credits, when the
reward is below one dif, or when a split leaves a portion below one dif. -/
def calculateRewards (creditsObserved stake : UInt64) (voteState : VoteState) :
    Option (UInt64 × UInt64) :=
  if voteState.credits ≤ creditsObserved then none
  else
    let totalRewards := F64.ofNat stake.toNat * STAKE_REWARD_TARGET_RATE *
      F64.ofNat (voteState.credits - creditsObserved).toNat / CREDITS_PER_YEAR
    if totalRewards < F64.ofNat 1 then none
    else
      let (voterRewards, stakerRewards, isSplit) := voteState.commissionSplit totalRewards
      if (voterRewards < F64.ofNat 1 ∨ stakerRewards < F64.ofNat 1) ∧ isSplit = true then none
      else some (voterRewards.toU64, stakerRewards.toU64)

/-! ## The stake account's instructions -/

/-- A keyed account with its difs replaced. -/
def withDifs (k : KeyedAccount) (difs : UInt64) : KeyedAccount :=
  { k with account := { k.account with difs } }

/-- `initialize_mining_pool`. -/
def initializeMiningPool (me : KeyedAccount) : Outcome InstructionError KeyedAccount := do
  match ← me.state StakeState.deserialize with
  | .uninitialized => me.setState StakeState.miningPool.serialize
  | _ => .err .invalidAccountData

/-- `initialize_delegate`: delegated to the default key, with no credits observed. -/
def initializeDelegate (me : KeyedAccount) : Outcome InstructionError KeyedAccount := do
  match ← me.state StakeState.deserialize with
  | .uninitialized => me.setState (StakeState.delegate default 0).serialize
  | _ => .err .invalidAccountData

/-- `delegate_stake`: a signed delegate account is delegated to any account whose data decodes
as a vote state, and observes its credits. -/
def delegateStake (me vote : KeyedAccount) : Outcome InstructionError KeyedAccount :=
  if me.signerKey.isNone then .err .missingRequiredSignature
  else do
    match ← me.state StakeState.deserialize with
    | .delegate _ _ => do
      let voteState ← vote.state VoteState.deserialize
      me.setState (StakeState.delegate vote.unsignedKey voteState.credits).serialize
    | _ => .err .invalidAccountData

/-- `redeem_vote_credits` of a mining pool `me`, for a delegate account and its vote account.
`calculate_rewards` returns the voter's reward first; it is bound here, as in the source, as
`(stakers_reward, voters_reward)`. -/
def redeemVoteCredits (me stake vote : KeyedAccount) :
    Outcome InstructionError (KeyedAccount × KeyedAccount × KeyedAccount) := do
  let meState ← me.state StakeState.deserialize
  let stakeState ← stake.state StakeState.deserialize
  match meState, stakeState with
  | .miningPool, .delegate voterPubkey creditsObserved => do
    let voteState ← vote.state VoteState.deserialize
    if voterPubkey ≠ vote.unsignedKey then .err .invalidArgument
    else if voteState.credits < creditsObserved then .err .invalidAccountData
    else
      match calculateRewards creditsObserved stake.account.difs voteState with
      | some (stakersReward, votersReward) =>
        if me.account.difs < stakersReward + votersReward then .err .unbalancedInstruction
        else
          let me := withDifs me (me.account.difs - (stakersReward + votersReward))
          let stake := withDifs stake (stake.account.difs + stakersReward)
          let vote := withDifs vote (vote.account.difs + votersReward)
          let stake ← stake.setState (StakeState.delegate voterPubkey voteState.credits).serialize
          pure (me, stake, vote)
      -- not worth collecting
      | none => .err (.customError 1)
  | _, _ => .err .invalidAccountData

/-! ## The processor -/

/-- `process_instruction` of the stake program.  `keyed_accounts[0]` pays and is not used,
`keyed_accounts[1]` is the stake account the instruction acts on. -/
def processInstruction : ProcessInstruction := fun _ keyedAccounts data _ =>
  match keyedAccounts with
  | payer :: me :: rest =>
    match deserialize StakeInstruction.deserialize data with
    | none => .err .invalidInstructionData
    | some .initializeMiningPool =>
      if !rest.isEmpty then .err .invalidInstructionData
      else (fun me => payer :: me :: rest) <$> initializeMiningPool me
    | some .initializeDelegate =>
      if !rest.isEmpty then .err .invalidInstructionData
      else (fun me => payer :: me :: rest) <$> initializeDelegate me
    | some .delegateStake =>
      match rest with
      | [vote] => (fun me => [payer, me, vote]) <$> delegateStake me vote
      | _ => .err .invalidInstructionData
    | some .redeemVoteCredits =>
      match rest with
      | [stake, vote] => (fun r => [payer, r.1, r.2.1, r.2.2]) <$> redeemVoteCredits me stake vote
      | _ => .err .invalidInstructionData
  | _ => .err .invalidInstructionData

end Stake

end Morgan
