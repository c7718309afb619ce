import Morgan.Core.Locktower
import Morgan.Core.LeaderSchedule
import Morgan.Lib.Binary64

/-!
# The stake-weighted locktower

`forkSelection.rs`: the filters of the locktower that weigh forks by stake.  For a bank,
`collect_vote_lockouts` replays the tower of each staked vote account with a vote on the bank's
slot, and adds on each slot voted on, and on its ancestors, the lockouts of the votes (`lockout`)
and the epoch stake of the account whose last real vote it is (`stake`).  A slot is confirmed
(`is_slot_confirmed`), and the tower may vote (`check_vote_stake_threshold`), when the stake on a
slot is more than the threshold share of the epoch's total stake, compared in `f64`;
`calculate_weight` weighs a fork by the lockouts times the stakes of the slots past the root.

Stakes and their sums are `Nat`: the `u64` sums of the source stay far below `u64::MAX` for any
supply of difs, and `calculate_weight` sums in `u128`.  A `HashSet` of ancestors is a list
without duplicates, in its iteration order; each update of the map of lockouts sets an entry in
place of the old one.  The epoch stakes keep the epoch, the stakes map and its total, which `new`
computes; the delegate's key and its own stake only feed the logging.  `update_epoch` takes the
stakes a bank of a later epoch saved for its epoch.
-/

namespace Morgan

open Rust

/-- `VOTE_THRESHOLD_DEPTH`. -/
def VOTE_THRESHOLD_DEPTH : Nat := 8

/-- `VOTE_THRESHOLD_SIZE`: `2f64 / 3f64`. -/
def VOTE_THRESHOLD_SIZE : F64 := F64.ofNat 2 / F64.ofNat 3

/-- `EpochStakes`: the stake of each vote account, one entry a key as in a `HashMap`, and their
total. -/
structure EpochStakes where
  epoch : UInt64
  stakes : AssocMap Pubkey Nat
  totalStaked : Nat
  stakes_nodup : stakes.keys.Nodup
  totalStaked_eq : totalStaked = (stakes.map (·.2)).sum
  deriving DecidableEq

/-- `EpochStakes::new`: the total of the stakes. -/
def EpochStakes.new (epoch : UInt64) (stakes : AssocMap Pubkey Nat) (h : stakes.keys.Nodup) :
    EpochStakes :=
  ⟨epoch, stakes, (stakes.map (·.2)).sum, h, rfl⟩

/-- `EpochStakes::new_from_bank`: the stakes the bank saved for the epoch of its slot; a bank
without them panics (`expect`). -/
def EpochStakes.newFromBank (bank : StakesBank) : Option EpochStakes :=
  let bankEpoch := (bank.epochSchedule.getEpochAndSlotIndex bank.slot).1
  match h : voteAccountStakesAtEpoch bank bankEpoch with
  | some stakes => some (EpochStakes.new bankEpoch stakes (nodup_voteAccountStakesAtEpoch h))
  | none => none

/-- `StakeLockout`: the lockouts and the stake added on a slot. -/
structure StakeLockout where
  lockout : Nat
  stake : Nat
  deriving DecidableEq, Repr

instance : Inhabited StakeLockout := ⟨⟨0, 0⟩⟩

/-- The map `stake_lockouts`. -/
abbrev StakeLockouts := AssocMap Slot StakeLockout

/-- A `HashSet<u64>` in its iteration order. -/
abbrev SlotSet := {l : List Slot // l.Nodup}

/-- The map `ancestors` of the bank forks. -/
abbrev AncestorsMap := Slot → Option SlotSet

/-- The entry of a slot, or the default one it is made with (`entry(slot).or_default()`). -/
def StakeLockouts.entry (stakeLockouts : StakeLockouts) (slot : Slot) : StakeLockout :=
  (stakeLockouts.get? slot).getD default

/-- `slot_with_ancestors`: the slot, then its ancestors. -/
def slotWithAncestors (ancestors : AncestorsMap) (slot : Slot) : List Slot :=
  slot :: ((ancestors slot).map (·.1)).getD []

/-- The loop shared by `update_ancestor_lockouts` and `update_ancestor_stakes`: the entry of each
slot in turn, made when missing, is updated by `f`. -/
def updateEntries (stakeLockouts : StakeLockouts) (slots : List Slot)
    (f : StakeLockout → StakeLockout) : StakeLockouts :=
  slots.foldl (fun m slot => m.set slot (f (m.entry slot))) stakeLockouts

/-- `update_ancestor_lockouts`. -/
def updateAncestorLockouts (stakeLockouts : StakeLockouts) (vote : Lockout)
    (ancestors : AncestorsMap) : StakeLockouts :=
  updateEntries stakeLockouts (slotWithAncestors ancestors vote.slot) fun e =>
    { e with lockout := e.lockout + vote.lockout.toNat }

/-- `update_ancestor_stakes`. -/
def updateAncestorStakes (stakeLockouts : StakeLockouts) (slot : Slot) (difs : Nat)
    (ancestors : AncestorsMap) : StakeLockouts :=
  updateEntries stakeLockouts (slotWithAncestors ancestors slot) fun e =>
    { e with stake := e.stake + difs }

/-- `Locktower`: the tower and its recent votes, with the epoch stakes and the thresholds of the
stake-weighted filters. -/
structure StakedLocktower extends Locktower where
  epochStakes : EpochStakes
  thresholdDepth : Nat
  thresholdSize : F64
  deriving DecidableEq

namespace StakedLocktower

/-- `Locktower::new`: an empty tower. -/
def new (epochStakes : EpochStakes) (thresholdDepth : Nat) (thresholdSize : F64) :
    StakedLocktower :=
  { toLocktower := Locktower.new, epochStakes, thresholdDepth, thresholdSize }

/-- The lockout of a root, counted as that of a full tower. -/
def rootLockout (root : Slot) : Lockout := ⟨root, UInt32.ofNat MAX_LOCKOUT_HISTORY⟩

/-- The lockouts a replayed tower adds in `collect_vote_lockouts`: those of its votes, of the root
it started from when the replayed vote moved the root, and of its root. -/
def addTowerLockouts (stakeLockouts : StakeLockouts) (startRoot : Option Slot)
    (voteState : VoteState) (ancestors : AncestorsMap) : StakeLockouts :=
  let m := voteState.votes.foldl (fun m vote => updateAncestorLockouts m vote ancestors)
    stakeLockouts
  let m :=
    if startRoot ≠ voteState.rootSlot then
      match startRoot with
      | some root => updateAncestorLockouts m (rootLockout root) ancestors
      | none => m
    else m
  match voteState.rootSlot with
  | some root => updateAncestorLockouts m (rootLockout root) ancestors
  | none => m

/-- One vote account of the loop of `collect_vote_lockouts`: an account without epoch stake, or
whose state does not decode, is skipped; `none` is the failed `assert_eq!` on the replayed vote. -/
def collectVoteLockout (t : StakedLocktower) (bankSlot : Slot) (ancestors : AncestorsMap)
    (stakeLockouts : StakeLockouts) (voteAccount : Pubkey × (UInt64 × Account)) :
    Option StakeLockouts :=
  let difs := (t.epochStakes.stakes.get? voteAccount.1).getD 0
  if difs = 0 then some stakeLockouts
  else
    match VoteState.fromAccount voteAccount.2.2 with
    | none => some stakeLockouts
    | some voteState =>
      let startRoot := voteState.rootSlot
      let voteState := voteState.processSlotVoteUnchecked bankSlot
      let m := addTowerLockouts stakeLockouts startRoot voteState ancestors
      if (voteState.nthRecentVote 0).map (·.slot) ≠ some bankSlot then none
      else
        -- the top of the tower is the replayed vote: the stake goes to the vote under it
        match voteState.nthRecentVote 1 with
        | some vote => some (updateAncestorStakes m vote.slot difs ancestors)
        | none => some m

/-- `collect_vote_lockouts` over the vote accounts of a bank. -/
def collectVoteLockouts (t : StakedLocktower) (bankSlot : Slot)
    (voteAccounts : List (Pubkey × (UInt64 × Account))) (ancestors : AncestorsMap) :
    Option StakeLockouts :=
  voteAccounts.foldlM (collectVoteLockout t bankSlot ancestors) []

/-- The comparison of `is_slot_confirmed` and `check_vote_stake_threshold`:
`stake as f64 / total_staked as f64 > threshold_size`. -/
def exceedsThreshold (stake totalStaked : Nat) (thresholdSize : F64) : Bool :=
  decide (thresholdSize < F64.ofNat stake / F64.ofNat totalStaked)

/-- `is_slot_confirmed`. -/
def isSlotConfirmed (t : StakedLocktower) (slot : Slot) (lockouts : StakeLockouts) : Bool :=
  ((lockouts.get? slot).map fun lockout =>
    exceedsThreshold lockout.stake t.epochStakes.totalStaked t.thresholdSize).getD false

/-- `is_recent_epoch`. -/
def isRecentEpoch (t : StakedLocktower) (bank : StakesBank) : Bool :=
  decide (t.epochStakes.epoch ≤ (bank.epochSchedule.getEpochAndSlotIndex bank.slot).1)

/-- `update_epoch`: a bank of another epoch brings the stakes saved for its epoch; a bank of an
earlier epoch fails the assertion. -/
def updateEpoch (t : StakedLocktower) (bank : StakesBank) : Option StakedLocktower :=
  if (bank.epochSchedule.getEpochAndSlotIndex bank.slot).1 ≠ t.epochStakes.epoch then
    if t.isRecentEpoch bank then
      (EpochStakes.newFromBank bank).map fun epochStakes => { t with epochStakes }
    else none
  else some t

/-- `check_vote_stake_threshold`: the vote `threshold_depth` places under the top of the tower
after a vote on `slot` needs more than the threshold share of the stake; a shallower tower
passes. -/
def checkVoteStakeThreshold (t : StakedLocktower) (slot : Slot) (stakeLockouts : StakeLockouts) :
    Bool :=
  let lockouts := t.lockouts.processSlotVoteUnchecked slot
  match lockouts.nthRecentVote t.thresholdDepth with
  | some vote =>
    match stakeLockouts.get? vote.slot with
    | some forkStake =>
      exceedsThreshold forkStake.stake t.epochStakes.totalStaked t.thresholdSize
    | none => false
  | none => true

/-- `calculate_weight`: the lockouts times the stakes of the slots past the root, in `u128`. -/
def calculateWeight (t : StakedLocktower) (stakeLockouts : StakeLockouts) : Nat :=
  let rootSlot := t.lockouts.rootSlot.getD 0
  stakeLockouts.foldl (fun sum entry =>
    if t.lockouts.rootSlot.isSome ∧ entry.1 ≤ rootSlot then sum
    else sum + entry.2.lockout * entry.2.stake) 0

end StakedLocktower

end Morgan
