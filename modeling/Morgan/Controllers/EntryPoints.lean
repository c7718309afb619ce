import Morgan.Controllers.VoteState
import Morgan.Runtime.SystemProgram

/-!
# Entry points of the vote and config programs

`vote_instruction.rs`: the vote program needs two accounts (the payer, then the vote account) and
decodes a `VoteInstruction`; a vote takes the next account as the slot hashes account, splitting
the accounts after the vote account at 1.  `config_processor.rs`: the config program writes the
instruction data over the front of its first account's data, which must have signed.
-/

namespace Morgan

open Rust Bincode

/-- `VoteInstruction`. -/
inductive VoteInstruction where
  | initializeAccount (nodePubkey : Pubkey) (commission : UInt32)
  | authorizeVoter (voterPubkey : Pubkey)
  | vote (votes : List Vote)
  deriving DecidableEq, Repr

namespace VoteInstruction

/-- Bincode's `VoteInstruction`: the `u32` variant index, then the fields. -/
def deserialize : Decoder VoteInstruction := do
  let tag ← u32
  match tag.toNat with
  | 0 => do
    let nodePubkey ← Pubkey.deserialize
    let commission ← u32
    pure (.initializeAccount nodePubkey commission)
  | 1 => .authorizeVoter <$> Pubkey.deserialize
  | 2 => .vote <$> vec Vote.deserialize
  | _ => failure

/-- `process_instruction` of the vote program: the vote account is the second account. -/
def processInstruction : ProcessInstruction := fun _ keyedAccounts data _ =>
  if keyedAccounts.length < 2 then .err .invalidInstructionData
  else do
    let me ← Outcome.ofOption keyedAccounts[1]?
    let rest := keyedAccounts.drop 2
    match Bincode.deserialize VoteInstruction.deserialize data with
    | none => .err .invalidInstructionData
    | some (.initializeAccount nodePubkey commission) => do
      let me ← VoteState.initializeAccount me nodePubkey commission
      pure (keyedAccounts.set 1 me)
    | some (.authorizeVoter voterPubkey) => do
      let me ← VoteState.authorizeVoter me rest voterPubkey
      pure (keyedAccounts.set 1 me)
    | some (.vote votes) => do
      -- `rest.split_at_mut(1)` panics when no account follows the vote account
      let slotHashes ← Outcome.ofOption rest[0]?
      let me ← VoteState.processVotesAccount me slotHashes (rest.drop 1) votes
      pure (keyedAccounts.set 1 me)

/-! ## When the vote program panics -/

theorem state_ne_panic {α : Type} (d : Decoder α) (k : KeyedAccount) : k.state d ≠ .panic := by
  unfold KeyedAccount.state
  split <;> simp

theorem setState_ne_panic (k : KeyedAccount) (encoding : List UInt8) :
    k.setState encoding ≠ .panic := by
  unfold KeyedAccount.setState
  split <;> simp

theorem initializeAccount_ne_panic (me : KeyedAccount) (nodePubkey : Pubkey) (commission : UInt32) :
    VoteState.initializeAccount me nodePubkey commission ≠ .panic := by
  unfold VoteState.initializeAccount
  rw [Ne, Outcome.bind_eq_panic, not_or]
  refine ⟨state_ne_panic _ _, ?_⟩
  rintro ⟨voteState, -, h⟩
  split_ifs at h
  exact setState_ne_panic _ _ h

theorem authorizeVoter_ne_panic (me : KeyedAccount) (rest : List KeyedAccount) (voter : Pubkey) :
    VoteState.authorizeVoter me rest voter ≠ .panic := by
  unfold VoteState.authorizeVoter
  rw [Ne, Outcome.bind_eq_panic, not_or]
  refine ⟨state_ne_panic _ _, ?_⟩
  rintro ⟨voteState, -, h⟩
  split_ifs at h
  exact setState_ne_panic _ _ h

theorem processVotesAccount_ne_panic (me slotHashes : KeyedAccount) (others : List KeyedAccount)
    (votes : List Vote) : VoteState.processVotesAccount me slotHashes others votes ≠ .panic := by
  unfold VoteState.processVotesAccount
  rw [Ne, Outcome.bind_eq_panic, not_or]
  refine ⟨state_ne_panic _ _, ?_⟩
  rintro ⟨voteState, -, h⟩
  split_ifs at h
  -- both branches left read the slot hashes account before the signer check
  · rcases Outcome.bind_eq_panic.1 h with h | ⟨hashes, -, h⟩
    · exact state_ne_panic _ _ h
    · cases h
  · rcases Outcome.bind_eq_panic.1 h with h | ⟨hashes, -, h⟩
    · exact state_ne_panic _ _ h
    · exact setState_ne_panic _ _ h

theorem set_ne_panic {me : Outcome InstructionError KeyedAccount} (hme : me ≠ .panic)
    (keyedAccounts : List KeyedAccount) :
    (me >>= fun me => pure (keyedAccounts.set 1 me)) ≠ .panic := by
  rw [Ne, Outcome.bind_eq_panic, not_or]
  exact ⟨hme, by simp⟩

/-- The vote program panics exactly on a vote given only the payer and the vote account: every
other path checks the account count or returns an error. -/
theorem processInstruction_eq_panic_iff {programId : Pubkey} {keyedAccounts : List KeyedAccount}
    {data : List UInt8} {tickHeight : UInt64} :
    processInstruction programId keyedAccounts data tickHeight = .panic ↔
      keyedAccounts.length = 2 ∧
        ∃ votes, Bincode.deserialize VoteInstruction.deserialize data = some (.vote votes) := by
  unfold processInstruction
  split_ifs with hlen
  · simp only [false_iff, not_and]
    omega
  have hme : keyedAccounts[1]? = some keyedAccounts[1] := List.getElem?_eq_getElem (by omega)
  rw [hme, Outcome.ofOption_some, Outcome.ok_bind]
  split
  case h_1 hd => simp [hd]
  case h_2 nodePubkey commission hd =>
    simp only [hd, Option.some.injEq, reduceCtorEq, exists_false, and_false, iff_false]
    exact set_ne_panic (initializeAccount_ne_panic _ _ _) _
  case h_3 voter hd =>
    simp only [hd, Option.some.injEq, reduceCtorEq, exists_false, and_false, iff_false]
    exact set_ne_panic (authorizeVoter_ne_panic _ _ _) _
  case h_4 votes hd =>
    simp only [hd, Option.some.injEq, VoteInstruction.vote.injEq, exists_eq', and_true]
    -- the panic is `rest.split_at_mut(1)` on an empty `rest`
    by_cases h2 : keyedAccounts.length = 2
    · have hrest : (keyedAccounts.drop 2)[0]? = none := by simp [h2]
      simp only [hrest, Outcome.ofOption_none, Outcome.panic_bind, h2]
    · have hlt : 0 < (keyedAccounts.drop 2).length := by
        rw [List.length_drop]
        omega
      have hrest : (keyedAccounts.drop 2)[0]? = some (keyedAccounts.drop 2)[0] :=
        List.getElem?_eq_getElem hlt
      rw [hrest, Outcome.ofOption_some, Outcome.ok_bind]
      simp only [h2, iff_false]
      exact set_ne_panic (processVotesAccount_ne_panic _ _ _ _) _

end VoteInstruction

namespace ConfigProcessor

/-- `process_instruction` of the config program. -/
def processInstruction : ProcessInstruction := fun _ keyedAccounts data _ => do
  let first ← Outcome.ofOption keyedAccounts[0]?
  if first.signerKey.isNone then .err .missingRequiredSignature
  else if first.account.data.length < data.length then .err .invalidInstructionData
  else
    pure (keyedAccounts.set 0
      { first with account := { first.account with data := data ++ first.account.data.drop data.length } })

/-- The config program panics exactly when it is given no account. -/
theorem processInstruction_eq_panic_iff {programId : Pubkey} {keyedAccounts : List KeyedAccount}
    {data : List UInt8} {tickHeight : UInt64} :
    processInstruction programId keyedAccounts data tickHeight = .panic ↔ keyedAccounts = [] := by
  unfold processInstruction
  cases keyedAccounts with
  | nil => simp
  | cons first rest =>
    simp only [List.getElem?_cons_zero, Outcome.ofOption_some, Outcome.ok_bind, reduceCtorEq,
      iff_false]
    split_ifs <;> simp

end ConfigProcessor

end Morgan
