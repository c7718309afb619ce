import Morgan.Interface.Account
import Morgan.Lib.Outcome

/-!
# The system program

`system_instruction_processor.rs`: the system program creates accounts, assigns them to programs
and moves difs and reputations between its first two accounts, which must be owned by it.  Every
instruction needs the first account to have signed.  Its errors are `SystemError` codes, returned
as `CustomError`.

A program's entry point takes the keyed accounts of an instruction and returns them updated, or
an error; reading an account past the end of the slice is a panic.
-/

namespace Morgan

open Rust Bincode

/-- A program's entry point, `process_instruction(program_id, keyed_accounts, data,
tick_height)`, returning the keyed accounts as the program left them. -/
abbrev ProcessInstruction :=
  Pubkey → List KeyedAccount → List UInt8 → UInt64 → Outcome InstructionError (List KeyedAccount)

/-- Update the account at an index of the keyed accounts; indexing past the end panics. -/
def updateAccount (keyedAccounts : List KeyedAccount) (i : Nat) (f : Account → Account) :
    Option (List KeyedAccount) := do
  let k ← keyedAccounts[i]?
  pure (keyedAccounts.set i { k with account := f k.account })

theorem updateAccount_eq_some {keyedAccounts keyedAccounts' : List KeyedAccount} {i : Nat}
    {f : Account → Account} :
    updateAccount keyedAccounts i f = some keyedAccounts' ↔
      ∃ k, keyedAccounts[i]? = some k ∧
        keyedAccounts' = keyedAccounts.set i { k with account := f k.account } := by
  unfold updateAccount
  cases keyedAccounts[i]? with
  | none => simp
  | some k => simp [eq_comm]

namespace SystemProgram

/-- `SystemInstruction`. -/
inductive SystemInstruction where
  | createAccount (difs reputations space : UInt64) (programId : Pubkey)
  | assign (programId : Pubkey)
  | transfer (difs : UInt64)
  | createAccountWithReputation (reputations space : UInt64) (programId : Pubkey)
  | transferReputations (reputations : UInt64)
  deriving DecidableEq, Repr

/-- Bincode writes an enum as its `u32` variant index, then the variant's fields. -/
def SystemInstruction.deserialize : Decoder SystemInstruction := do
  let tag ← u32
  match tag.toNat with
  | 0 => do
    let difs ← u64
    let reputations ← u64
    let space ← u64
    let programId ← Pubkey.deserialize
    pure (.createAccount difs reputations space programId)
  | 1 => .assign <$> Pubkey.deserialize
  | 2 => .transfer <$> u64
  | 3 => do
    let reputations ← u64
    let space ← u64
    let programId ← Pubkey.deserialize
    pure (.createAccountWithReputation reputations space programId)
  | 4 => .transferReputations <$> u64
  | _ => failure

/-- `SystemError`. -/
inductive SystemError where
  | accountAlreadyInUse
  | resultWithNegativeDifs
  | sourceNotSystemAccount
  | resultWithNegativeReputations
  deriving DecidableEq, Repr

/-- `e as u32`. -/
def SystemError.code : SystemError → UInt32
  | .accountAlreadyInUse => 0
  | .resultWithNegativeDifs => 1
  | .sourceNotSystemAccount => 2
  | .resultWithNegativeReputations => 3

def FROM_ACCOUNT_INDEX : Nat := 0

def TO_ACCOUNT_INDEX : Nat := 1

/-- `create_system_account` and `create_system_account_with_reputation`, which differ only in the
difs they move: `difs`, or one. -/
def createSystemAccount (keyedAccounts : List KeyedAccount) (difs reputations space : UInt64)
    (programId : Pubkey) : Outcome SystemError (List KeyedAccount) := do
  let source ← Outcome.ofOption keyedAccounts[FROM_ACCOUNT_INDEX]?
  if source.account.owner ≠ SYSTEM_PROGRAM_ID then .err .sourceNotSystemAccount
  else
    let target ← Outcome.ofOption keyedAccounts[TO_ACCOUNT_INDEX]?
    if !target.account.data.isEmpty || target.account.owner ≠ SYSTEM_PROGRAM_ID then
      .err .accountAlreadyInUse
    else if difs > source.account.difs then .err .resultWithNegativeDifs
    else do
      let keyedAccounts ← Outcome.ofOption <| updateAccount keyedAccounts FROM_ACCOUNT_INDEX fun a =>
        { a with difs := a.difs - difs }
      Outcome.ofOption <| updateAccount keyedAccounts TO_ACCOUNT_INDEX fun a =>
        { a with difs := a.difs + difs, reputations := a.reputations + reputations,
                 owner := programId, data := List.replicate space.toNat 0, executable := false }

/-- `transfer_difs`. -/
def transferDifs (keyedAccounts : List KeyedAccount) (difs : UInt64) :
    Outcome SystemError (List KeyedAccount) := do
  let source ← Outcome.ofOption keyedAccounts[FROM_ACCOUNT_INDEX]?
  if difs > source.account.difs then .err .resultWithNegativeDifs
  else do
    let keyedAccounts ← Outcome.ofOption <| updateAccount keyedAccounts FROM_ACCOUNT_INDEX fun a =>
      { a with difs := a.difs - difs }
    Outcome.ofOption <| updateAccount keyedAccounts TO_ACCOUNT_INDEX fun a =>
      { a with difs := a.difs + difs }

/-- `transfer_reputations`. -/
def transferReputations (keyedAccounts : List KeyedAccount) (reputations : UInt64) :
    Outcome SystemError (List KeyedAccount) := do
  let source ← Outcome.ofOption keyedAccounts[FROM_ACCOUNT_INDEX]?
  if reputations > source.account.reputations then .err .resultWithNegativeReputations
  else do
    let keyedAccounts ← Outcome.ofOption <| updateAccount keyedAccounts FROM_ACCOUNT_INDEX fun a =>
      { a with reputations := a.reputations - reputations }
    Outcome.ofOption <| updateAccount keyedAccounts TO_ACCOUNT_INDEX fun a =>
      { a with reputations := a.reputations + reputations }

/-- `process_instruction`. -/
def processInstruction : ProcessInstruction := fun _ keyedAccounts data _ =>
  match Bincode.deserialize SystemInstruction.deserialize data with
  | none => .err .invalidInstructionData
  | some instruction => do
    let source ← Outcome.ofOption keyedAccounts[FROM_ACCOUNT_INDEX]?
    if source.signerKey.isNone then .err .missingRequiredSignature
    else match instruction with
      | .createAccount difs reputations space programId =>
        (createSystemAccount keyedAccounts difs reputations space programId).mapErr
          (.customError ·.code)
      | .createAccountWithReputation reputations space programId =>
        (createSystemAccount keyedAccounts 1 reputations space programId).mapErr
          (.customError ·.code)
      | .assign programId =>
        if source.account.owner ≠ SYSTEM_PROGRAM_ID then .err .incorrectProgramId
        else Outcome.ofOption <| updateAccount keyedAccounts FROM_ACCOUNT_INDEX fun a =>
          { a with owner := programId }
      | .transfer difs => (transferDifs keyedAccounts difs).mapErr (.customError ·.code)
      | .transferReputations reputations =>
        (transferReputations keyedAccounts reputations).mapErr (.customError ·.code)

end SystemProgram

end Morgan
