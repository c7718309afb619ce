import Morgan.Controllers.Stake
import Morgan.Runtime.Bank

/-!
# Reward redemption

`redeemVoteCredits_eq_ok` says what a successful `redeem_vote_credits` does: the mining pool pays
the two rewards `calculate_rewards` computes, the voter's first, to the delegate account and then
to the vote account, and the delegate account observes the vote account's credits.  So the
delegate account receives the voter's portion and the vote account the staker's: with a
commission of zero, the vote account takes the whole reward and the delegate account nothing
(`redeemVoteCredits_commission_zero`).
-/

namespace Morgan

namespace Stake

open Rust Bincode

theorem commissionSplit_zero {s : VoteState} (h : s.commission = 0) (on : F64) :
    s.commissionSplit on = (F64.zero, on, false) := by
  simp [VoteState.commissionSplit, h]

/-- With a commission of zero the voter's reward is zero, and the staker's the whole reward, of
at least one dif. -/
theorem calculateRewards_commission_zero {creditsObserved stake : UInt64} {voteState : VoteState}
    (hzero : voteState.commission = 0) {voterRewards stakerRewards : UInt64}
    (h : calculateRewards creditsObserved stake voteState = some (voterRewards, stakerRewards)) :
    voterRewards = 0 ∧ stakerRewards ≠ 0 := by
  unfold calculateRewards at h
  dsimp only at h
  generalize F64.ofNat stake.toNat * STAKE_REWARD_TARGET_RATE *
    F64.ofNat (voteState.credits - creditsObserved).toNat / CREDITS_PER_YEAR = total at h
  split_ifs at h with hcredits htotal
  rw [commissionSplit_zero hzero] at h
  simp only [Option.some.injEq, Prod.mk.injEq] at h
  obtain ⟨rfl, rfl⟩ := h
  refine ⟨F64.toU64_zero, F64.toU64_ne_zero ?_⟩
  -- the reward was not below `1f64`
  have hone : (F64.ofNat 1).val = 1 := F64.val_ofNat (by norm_num)
  exact hone ▸ not_lt.1 htotal

/-- A successful redemption: the first account is a mining pool and the second a delegate account
delegated to the third's key; the pool pays the rewards `calculate_rewards` computes, the voter's
to the delegate account and the staker's to the vote account, and the delegate account observes
the vote account's credits. -/
theorem redeemVoteCredits_eq_ok {me stake vote me' stake' vote' : KeyedAccount}
    (h : redeemVoteCredits me stake vote = .ok (me', stake', vote')) :
    ∃ creditsObserved voteState voterRewards stakerRewards,
      me.state StakeState.deserialize = .ok .miningPool ∧
      stake.state StakeState.deserialize = .ok (.delegate vote.key creditsObserved) ∧
      vote.state VoteState.deserialize = .ok voteState ∧
      calculateRewards creditsObserved stake.account.difs voteState =
        some (voterRewards, stakerRewards) ∧
      ¬ me.account.difs < voterRewards + stakerRewards ∧
      me' = withDifs me (me.account.difs - (voterRewards + stakerRewards)) ∧
      (withDifs stake (stake.account.difs + voterRewards)).setState
        (StakeState.delegate vote.key voteState.credits).serialize = .ok stake' ∧
      vote' = withDifs vote (vote.account.difs + stakerRewards) := by
  unfold redeemVoteCredits at h
  obtain ⟨meState, hme, h⟩ := Outcome.bind_eq_ok.1 h
  obtain ⟨stakeState, hstake, h⟩ := Outcome.bind_eq_ok.1 h
  cases meState with
  | miningPool =>
    cases stakeState with
    | delegate voterPubkey creditsObserved =>
      obtain ⟨voteState, hvote, h⟩ := Outcome.bind_eq_ok.1 h
      split_ifs at h with hkey hcredits
      -- the delegate account names the vote account
      have hvoter : voterPubkey = vote.key := not_not.1 hkey
      subst hvoter
      split at h
      · rename_i voterRewards stakerRewards hcalc
        split_ifs at h with hpool
        obtain ⟨stake'', hset, h⟩ := Outcome.bind_eq_ok.1 h
        cases h
        exact ⟨creditsObserved, voteState, voterRewards, stakerRewards, hme, hstake, hvote, hcalc,
          hpool, rfl, hset, rfl⟩
      · cases h
    | uninitialized => cases h
    | miningPool => cases h
  | uninitialized => cases h
  | delegate _ _ => cases h

theorem difs_of_setState {k k' : KeyedAccount} {encoding : List UInt8}
    (h : k.setState encoding = .ok k') : k'.account.difs = k.account.difs := by
  unfold KeyedAccount.setState at h
  split at h
  · cases h
    rfl
  · cases h

/-- With a vote state of commission zero, a successful redemption pays the whole reward, at least
one dif, from the mining pool to the vote account, and nothing to the delegate account. -/
theorem redeemVoteCredits_commission_zero {me stake vote me' stake' vote' : KeyedAccount}
    {voteState : VoteState} (hvote : vote.state VoteState.deserialize = .ok voteState)
    (hzero : voteState.commission = 0)
    (h : redeemVoteCredits me stake vote = .ok (me', stake', vote')) :
    ∃ reward, reward ≠ 0 ∧ me'.account.difs = me.account.difs - reward ∧
      stake'.account.difs = stake.account.difs ∧ vote'.account.difs = vote.account.difs + reward := by
  obtain ⟨_, voteState', voterRewards, stakerRewards, -, -, hvote', hcalc, -, rfl, hset, rfl⟩ :=
    redeemVoteCredits_eq_ok h
  -- the vote state the redemption read is the one given
  have hsame : voteState' = voteState := Outcome.ok.inj (hvote'.symm.trans hvote)
  subst hsame
  obtain ⟨rfl, hstaker⟩ := calculateRewards_commission_zero hzero hcalc
  refine ⟨stakerRewards, hstaker, by simp [withDifs], ?_, rfl⟩
  rw [difs_of_setState hset]
  simp [withDifs]

/-! ## A redemption at commission zero -/

def poolKey : Pubkey := ⟨Vector.replicate 32 1⟩

def delegateKey : Pubkey := ⟨Vector.replicate 32 2⟩

def voterKey : Pubkey := ⟨Vector.replicate 32 3⟩

/-- A vote state of commission zero that earned one credit. -/
def oneCreditVoteState : VoteState := { VoteState.new voterKey voterKey 0 with credits := 1 }

/-- A mining pool of 10 difs, a delegate account of stake `200_000_000` delegated to `voterKey`
with no credits observed, and the vote account of `oneCreditVoteState`. -/
def redeemAccounts : List KeyedAccount :=
  [⟨poolKey, true, ⟨1, 0, [], SYSTEM_PROGRAM_ID, false⟩⟩,
    ⟨poolKey, false, ⟨10, 0, StakeState.miningPool.serialize, STAKE_PROGRAM_ID, false⟩⟩,
    ⟨delegateKey, false,
      ⟨200000000, 0, (StakeState.delegate voterKey 0).serialize, STAKE_PROGRAM_ID, false⟩⟩,
    ⟨voterKey, false, ⟨100, 0, oneCreditVoteState.serialize, VOTE_PROGRAM_ID, false⟩⟩]

theorem redeem_pays_staker_share_to_vote_account :
    oneCreditVoteState.commission = 0 ∧
      processInstruction STAKE_PROGRAM_ID redeemAccounts StakeInstruction.redeemVoteCredits.serialize 0 =
        .ok [⟨poolKey, true, ⟨1, 0, [], SYSTEM_PROGRAM_ID, false⟩⟩,
          ⟨poolKey, false, ⟨9, 0, StakeState.miningPool.serialize, STAKE_PROGRAM_ID, false⟩⟩,
          ⟨delegateKey, false,
            ⟨200000000, 0, (StakeState.delegate voterKey 1).serialize, STAKE_PROGRAM_ID, false⟩⟩,
          ⟨voterKey, false, ⟨101, 0, oneCreditVoteState.serialize, VOTE_PROGRAM_ID, false⟩⟩] := by
  decide +kernel

end Stake

end Morgan
