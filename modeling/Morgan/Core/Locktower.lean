import Morgan.Controllers.VoteState
import Morgan.Core.BankForks

/-!
# The locktower

`forkSelection.rs`: the validator's own tower of votes (`lockouts`, a `VoteState`) and the filters
the replay stage applies before voting on a bank.  `record_vote` runs `process_vote_unchecked` on
the tower and returns the new root when the root moved; `has_voted` looks for the slot in the
tower; `is_locked_out` simulates the vote on a copy of the tower and reports a lockout when some
remaining vote, or the root, does not have the new slot among its descendants.

`recent_votes` keeps the hashes of the last `MAX_RECENT_VOTES` votes of the tower.  The epoch
stakes and the thresholds of the tower are read only by the stake-weighted filters
(`check_vote_stake_threshold`, `calculate_weight`), which `Morgan.Core.LocktowerStake` models over
this tower.
-/

namespace Morgan

/-- `MAX_RECENT_VOTES`. -/
def MAX_RECENT_VOTES : Nat := 16

/-- The fields of `Locktower` read by the vote filters. -/
structure Locktower where
  lockouts : VoteState
  recentVotes : List Vote
  deriving DecidableEq

namespace Locktower

/-- `Locktower::new`: an empty tower. -/
def new : Locktower := ⟨VoteState.default, []⟩

/-- `record_vote`.  The new root is unwrapped when the root changed (`none` is that panic). -/
def recordVote (t : Locktower) (slot : Slot) (hash : Hash) : Option (Locktower × Option Slot) :=
  let rootSlot := t.lockouts.rootSlot
  let vote : Vote := ⟨slot, hash⟩
  let lockouts := t.lockouts.processVoteUnchecked vote
  -- the tower keeps no hashes: they are kept for the last `MAX_RECENT_VOTES` votes
  let slots := (lockouts.votes.drop (lockouts.votes.length - MAX_RECENT_VOTES)).map (·.slot)
  let recentVotes := (t.recentVotes ++ [vote]).filter fun v => slots.contains v.slot
  let t' : Locktower := ⟨lockouts, recentVotes⟩
  if rootSlot ≠ lockouts.rootSlot then lockouts.rootSlot.map fun r => (t', some r)
  else some (t', none)

/-- `root`. -/
def root (t : Locktower) : Option Slot := t.lockouts.rootSlot

/-- `has_voted`. -/
def hasVoted (t : Locktower) (slot : Slot) : Bool := t.lockouts.votes.any (·.slot = slot)

/-- The loop of `is_locked_out` over the simulated tower: a vote other than `slot` locks the
voter out unless `slot` descends from it; `descendants[&vote.slot]` panics on a missing key. -/
def lockedOutByVotes (descendants : DescendantsMap) (slot : Slot) : List Lockout → Option Bool
  | [] => some false
  | v :: vs =>
    if v.slot = slot then lockedOutByVotes descendants slot vs
    else do
      let d ← descendants v.slot
      if slot ∈ d then lockedOutByVotes descendants slot vs else some true

/-- `is_locked_out` (`none` is a panic of the map index). -/
def isLockedOut (t : Locktower) (slot : Slot) (descendants : DescendantsMap) : Option Bool := do
  let lockouts := t.lockouts.processSlotVoteUnchecked slot
  let byVotes ← lockedOutByVotes descendants slot lockouts.votes
  if byVotes then some true
  else match lockouts.rootSlot with
    | some root => (descendants root).map fun d => decide (slot ∉ d)
    | none => some false

end Locktower

end Morgan
