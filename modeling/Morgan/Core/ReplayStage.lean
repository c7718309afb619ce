import Morgan.Core.LocktowerStake
import Morgan.Lib.Machine

/-!
# The vote of the replay stage

`repeatStage.rs`: each pass of the replay loop picks the bank the validator votes on.
`generate_votable_banks` keeps the frozen banks that are votable, of an epoch no older than the
locktower's, not voted on and not locked out; it collects the vote lockouts of each, keeps those
that pass the vote stake threshold, weighs them (`calculate_weight`) and sorts them by weight.
`handle_votable_bank` then records a vote on the last, heaviest, bank: the locktower's
`record_vote`, the lookup of a new root's bank, and `update_epoch`.

The bank forks, their ancestors and the frozen banks of a pass are the pass's input: new banks come
from the blocktree (`generate_new_bank_forks`, `replay_active_banks`), which is not modelled, and
so do the roots set on the forks, the blocktree and the leader schedule cache.  The progress map
(`confirm_forks`, `handle_new_root`) only feeds the logging, and the vote transaction and the
reset of the PoH recorder are outputs of the pass outside the locktower.
-/

namespace Morgan

/-- The fields of a frozen bank the vote reads: its slot, epoch schedule, vote accounts and saved
epoch stakes (`StakesBank`), its hash, and `is_votable`. -/
structure FrozenBank where
  bank : StakesBank
  hash : Hash
  isVotable : Bool

/-- What one pass of the replay loop reads of the bank forks: the forks (and their `descendants()`),
their `ancestors()`, and the frozen banks. -/
structure ReplayPass where
  forks : BankForks
  ancestors : AncestorsMap
  frozenBanks : List FrozenBank

namespace ReplayStage

open StakedLocktower

/-- The filters and the weighing of `generate_votable_banks` on one bank: its weight when it passes
them, `some none` when one of them drops it, `none` when `is_locked_out` or
`collect_vote_lockouts` panics. -/
def votableWeight (t : StakedLocktower) (descendants : DescendantsMap) (ancestors : AncestorsMap)
    (frozenBank : FrozenBank) : Option (Option Nat) := do
  let bank := frozenBank.bank
  if !(frozenBank.isVotable && t.isRecentEpoch bank && !t.hasVoted bank.slot) then return none
  if ← t.isLockedOut bank.slot descendants then return none
  let stakeLockouts ← t.collectVoteLockouts bank.slot bank.stakes.voteAccounts ancestors
  if !t.checkVoteStakeThreshold bank.slot stakeLockouts then return none
  return some (t.calculateWeight stakeLockouts)

/-- `generate_votable_banks`: the weights and the banks that pass, sorted by weight
(`sort_by_key`, which is stable). -/
def generateVotableBanks (t : StakedLocktower) (descendants : DescendantsMap)
    (ancestors : AncestorsMap) (frozenBanks : List FrozenBank) :
    Option (List (Nat × FrozenBank)) := do
  let votable ← frozenBanks.filterMapM fun frozenBank =>
    (votableWeight t descendants ancestors frozenBank).map (·.map (·, frozenBank))
  return votable.mergeSort fun a b => decide (a.1 ≤ b.1)

/-- `handle_votable_bank`, as far as the locktower goes: `record_vote` on the bank, the lookup of
the new root's bank before the squash (`expect`), and `update_epoch`. -/
def handleVotableBank (t : StakedLocktower) (forks : BankForks) (frozenBank : FrozenBank) :
    Option StakedLocktower := do
  let (tower, newRoot) ← t.recordVote frozenBank.bank.slot frozenBank.hash
  if let some root := newRoot then
    if (forks.get root).isNone then none
  updateEpoch { t with toLocktower := tower } frozenBank.bank

/-- The vote of one pass of the replay loop: on the last bank `generate_votable_banks` returns, if
any.  The output is the slot voted on. -/
def votePass (t : StakedLocktower) (pass : ReplayPass) : Option (StakedLocktower × List Slot) := do
  let votable ← generateVotableBanks t pass.forks.descendants pass.ancestors pass.frozenBanks
  match votable.getLast? with
  | some (_, frozenBank) =>
    let t' ← handleVotableBank t pass.forks frozenBank
    return (t', [frozenBank.bank.slot])
  | none => return (t, [])

end ReplayStage

end Morgan
