import Morgan.Lib.Outcome
import Morgan.Interface.Account

/-!
# The vote state of the vote program

`vote_state.rs` keeps a validator's tower of lockouts.  A `Lockout` on a slot with confirmation
count `c` locks the voter out of every other fork for `2 ^ c` slots.  `process_vote` drops a vote
that is not newer than the top of the tower or whose slot and hash are not in `slot_hashes`;
otherwise it pops from the top the lockouts that expired before the new slot, promotes the bottom
lockout to the root once the tower holds `MAX_LOCKOUT_HISTORY` of them, pushes the new lockout
and doubles the lockouts that gained a confirmation (`double_lockouts`).

The `VecDeque` of lockouts is a list whose head is its front (the oldest vote) and whose last
element is its `back`.  Arithmetic is that of the release build: `u64` and `u32` wrap.

A vote account keeps its `VoteState` bincode-encoded in its data.  `initialize_account`,
`authorize_voter` and `process_votes` decode it (`InvalidAccountData` when it does not decode),
check the signer or the slot hashes account, and encode it back over the front of the data.
-/

namespace Morgan

/-- `MAX_LOCKOUT_HISTORY`: the most lockouts a tower holds. -/
def MAX_LOCKOUT_HISTORY : Nat := 31

/-- `INITIAL_LOCKOUT`. -/
def INITIAL_LOCKOUT : Nat := 2

/-- A vote for the bank of `slot` with state hash `hash`. -/
structure Vote where
  slot : Slot
  hash : Hash
  deriving DecidableEq, Repr

/-- A vote in the tower with the number of votes stacked on it. -/
structure Lockout where
  slot : Slot
  confirmationCount : UInt32
  deriving DecidableEq, Repr

namespace Lockout

/-- `Lockout::new`: a fresh vote, confirmed once. -/
def new (vote : Vote) : Lockout := ⟨vote.slot, 1⟩

/-- `lockout`: `INITIAL_LOCKOUT.pow(confirmation_count)` in `u64`. -/
def lockout (l : Lockout) : UInt64 := UInt64.ofNat (INITIAL_LOCKOUT ^ l.confirmationCount.toNat)

/-- The first slot at which the vote no longer locks the voter out. -/
def expirationSlot (l : Lockout) : UInt64 := l.slot + l.lockout

def isExpired (l : Lockout) (slot : Slot) : Bool := decide (l.expirationSlot < slot)

end Lockout

/-- The state of a vote account. -/
structure VoteState where
  votes : List Lockout
  nodePubkey : Pubkey
  authorizedVoterPubkey : Pubkey
  commission : UInt32
  rootSlot : Option Slot
  credits : UInt64
  deriving DecidableEq, Repr

namespace VoteState

/-- `VoteState::default()`. -/
def default : VoteState := ⟨[], Inhabited.default, Inhabited.default, 0, none, 0⟩

/-- `pop_expired_votes`: pop from the back while the back lockout has expired before `slot`. -/
def popExpiredVotes (votes : List Lockout) (slot : Slot) : List Lockout :=
  (votes.reverse.dropWhile (·.isExpired slot)).reverse

/-- `double_lockouts`: the lockout at depth `i` of a tower of `stack_depth` gains a confirmation
when more than `confirmation_count` votes are stacked on it. -/
def doubleLockouts (votes : List Lockout) : List Lockout :=
  votes.mapIdx fun i v =>
    if votes.length > i + v.confirmationCount.toNat then
      { v with confirmationCount := v.confirmationCount + 1 }
    else v

/-- The root promotion of `process_vote`: a full tower pops its front lockout into the root and
earns a credit. -/
def promoteRoot (s : VoteState) (votes : List Lockout) : VoteState :=
  match votes with
  | v :: rest =>
    if votes.length = MAX_LOCKOUT_HISTORY then
      { s with votes := rest, rootSlot := some v.slot, credits := s.credits + 1 }
    else { s with votes := votes }
  | [] => { s with votes := [] }

/-- `process_vote`. -/
def processVote (s : VoteState) (vote : Vote) (slotHashes : List (Slot × Hash)) : VoteState :=
  -- votes for slots not newer than the top of the tower are ignored
  if s.votes.getLast?.any (fun old => decide (vote.slot ≤ old.slot)) then s
  -- so are votes whose slot and hash are not both in `slot_hashes`
  else if !slotHashes.any (fun sh => decide (vote.slot = sh.1 ∧ vote.hash = sh.2)) then s
  else
    let lockout := Lockout.new vote
    let s' := promoteRoot s (popExpiredVotes s.votes lockout.slot)
    { s' with votes := doubleLockouts (s'.votes ++ [lockout]) }

/-- `process_vote_unchecked`: the vote's own slot and hash stand in for `slot_hashes`. -/
def processVoteUnchecked (s : VoteState) (vote : Vote) : VoteState :=
  s.processVote vote [(vote.slot, vote.hash)]

/-- `process_slot_vote_unchecked`: a vote with the default hash. -/
def processSlotVoteUnchecked (s : VoteState) (slot : Slot) : VoteState :=
  s.processVoteUnchecked ⟨slot, Inhabited.default⟩

/-- `process_votes`: the votes in order. -/
def processVotes (s : VoteState) (votes : List Vote) (slotHashes : List (Slot × Hash)) :
    VoteState :=
  votes.foldl (fun s vote => s.processVote vote slotHashes) s

/-- `VoteState::new`: the vote account's own key is the authorized voter. -/
def new (votePubkey nodePubkey : Pubkey) (commission : UInt32) : VoteState :=
  ⟨[], nodePubkey, votePubkey, commission, none, 0⟩

/-- `nth_recent_vote`: the lockout `position` places below the top of the tower. -/
def nthRecentVote (s : VoteState) (position : Nat) : Option Lockout :=
  if position < s.votes.length then s.votes[s.votes.length - 1 - position]? else none

end VoteState

/-! ## The vote account -/

open Rust Bincode

/-- `slot_hashes::id()`. -/
def SLOT_HASHES_ID : Pubkey :=
  ⟨#v[6, 167, 211, 138, 69, 219, 186, 157, 48, 170, 46, 66, 2, 146, 193, 59, 39, 59, 245, 188, 30,
    60, 130, 78, 86, 27, 113, 191, 208, 0, 0, 0]⟩

def Vote.deserialize : Decoder Vote := do
  let slot ← u64
  let hash ← Hash.deserialize
  pure ⟨slot, hash⟩

def Lockout.deserialize : Decoder Lockout := do
  let slot ← u64
  let confirmationCount ← u32
  pure ⟨slot, confirmationCount⟩

def VoteState.deserialize : Decoder VoteState := do
  let votes ← vec Lockout.deserialize
  let nodePubkey ← Pubkey.deserialize
  let authorizedVoterPubkey ← Pubkey.deserialize
  let commission ← u32
  let rootSlot ← option u64
  let credits ← u64
  pure ⟨votes, nodePubkey, authorizedVoterPubkey, commission, rootSlot, credits⟩

/-- `VoteState::from(account)`: the account's data decoded, or nothing. -/
def VoteState.fromAccount (account : Account) : Option VoteState :=
  Bincode.deserialize VoteState.deserialize account.data

def VoteState.serialize (s : VoteState) : List UInt8 :=
  encodeU64 (UInt64.ofNat s.votes.length) ++
    s.votes.flatMap (fun l => encodeU64 l.slot ++ encodeU32 l.confirmationCount) ++
    s.nodePubkey.bytes.toList ++ s.authorizedVoterPubkey.bytes.toList ++ encodeU32 s.commission ++
    encodeOption encodeU64 s.rootSlot ++ encodeU64 s.credits

/-- `VoteState::size_of`: the encoded size of a full tower of default lockouts with a root. -/
def VoteState.sizeOf : Nat :=
  (VoteState.serialize { VoteState.default with
    votes := List.replicate MAX_LOCKOUT_HISTORY ⟨0, 0⟩, rootSlot := some 0xFFFFFFFFFFFFFFFF }).length

/-- The `Vec<(u64, Hash)>` a slot hashes account holds. -/
def slotHashesDeserialize : Decoder (List (Slot × Hash)) :=
  vec do
    let slot ← u64
    let hash ← Hash.deserialize
    pure (slot, hash)

namespace KeyedAccount

/-- `state()`: the account's data decoded. -/
def state {α : Type} (d : Decoder α) (k : KeyedAccount) : Outcome InstructionError α :=
  match Bincode.deserialize d k.account.data with
  | some a => .ok a
  | none => .err .invalidAccountData

/-- `set_state()`: an encoding written over the front of the data; the slice's writer fails, and
bincode reports an I/O error (`GenericError`), when the data is too short. -/
def setState (k : KeyedAccount) (encoding : List UInt8) : Outcome InstructionError KeyedAccount :=
  match serializeInto encoding k.account.data with
  | some data => .ok { k with account := { k.account with data } }
  | none => .err .genericError

end KeyedAccount

namespace VoteState

/-- The signer check of `authorize_voter` and `process_votes`: the vote account or one of the
other accounts signed with the authorized voter's key. -/
def signedBy (voteAccount : KeyedAccount) (otherSigners : List KeyedAccount) (voter : Pubkey) :
    Bool :=
  voteAccount.signerKey = some voter || otherSigners.any (·.signerKey = some voter)

/-- `authorize_voter`. -/
def authorizeVoter (voteAccount : KeyedAccount) (otherSigners : List KeyedAccount)
    (authorizedVoterPubkey : Pubkey) : Outcome InstructionError KeyedAccount := do
  let voteState ← voteAccount.state VoteState.deserialize
  if !signedBy voteAccount otherSigners voteState.authorizedVoterPubkey then
    .err .missingRequiredSignature
  else voteAccount.setState { voteState with authorizedVoterPubkey }.serialize

/-- `initialize_account`. -/
def initializeAccount (voteAccount : KeyedAccount) (nodePubkey : Pubkey) (commission : UInt32) :
    Outcome InstructionError KeyedAccount := do
  let voteState ← voteAccount.state VoteState.deserialize
  if voteState.authorizedVoterPubkey ≠ Inhabited.default then .err .accountAlreadyInitialized
  else voteAccount.setState (VoteState.new voteAccount.unsignedKey nodePubkey commission).serialize

/-- `process_votes` on the vote account. -/
def processVotesAccount (voteAccount slotHashesAccount : KeyedAccount)
    (otherSigners : List KeyedAccount) (votes : List Vote) :
    Outcome InstructionError KeyedAccount := do
  let voteState ← voteAccount.state VoteState.deserialize
  if voteState.authorizedVoterPubkey = Inhabited.default then .err .uninitializedAccount
  else if slotHashesAccount.unsignedKey ≠ SLOT_HASHES_ID then .err .invalidArgument
  else do
    let slotHashes ← slotHashesAccount.state slotHashesDeserialize
    if !signedBy voteAccount otherSigners voteState.authorizedVoterPubkey then
      .err .missingRequiredSignature
    else voteAccount.setState (voteState.processVotes votes slotHashes).serialize

end VoteState

end Morgan
