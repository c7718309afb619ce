import Mathlib
import Morgan.Runtime.SystemProgram

/-!
# Executing a message

`message_processor.rs` and `native_loader.rs`: each instruction of a message runs the program it
names over the accounts it lists.  The program sees its loader chain first (the executable
accounts, keyed by their owners), then its accounts, each keyed by its account key and flagged as
a signer when its index in the message is below `num_required_signatures`.  A program registered
in `instruction_processors` runs directly, past the first executable account; any other goes
through the native loader, which opens the library named by the first executable account's data.
After the call the runtime checks the accounting rules: an account's owner changes only through
the system program, an account the program does not own loses no difs and keeps its data, and the
sum of the difs, in wrapping `u64` as release builds compute it, is unchanged.

Opening a library is outside the repository: `Libraries` maps a name to the entry point it
exports, and is a parameter.
-/

namespace Morgan

open Rust Bincode

/-- `has_duplicates`: some element occurs again later in the slice. -/
def hasDuplicates {α : Type} [BEq α] : List α → Bool
  | [] => false
  | x :: xs => xs.contains x || hasDuplicates xs

/-- `Message::program_ids`; indexing the account keys panics out of bounds. -/
def Message.programIds (message : Message) : Option (List Pubkey) :=
  message.instructions.mapM fun ix => message.accountKeys[ix.programIdsIndex.toNat]?

/-- `Message::program_position`: the first instruction whose program is the key at `index`. -/
def Message.programPosition (message : Message) (index : Nat) : Option (Option Nat) := do
  let programIds ← message.programIds
  let key ← message.accountKeys[index]?
  pure (programIds.findIdx? (· == key))

/-- `get_subset_unchecked_mut`: the elements at the indexes, which must be distinct. -/
def getSubsetUncheckedMut {α : Type} (xs : List α) (indexes : List UInt8) :
    Outcome InstructionError (List α) :=
  if hasDuplicates indexes then .err .duplicateAccountIndex
  else Outcome.ofOption (indexes.mapM fun i => xs[i.toNat]?)

/-- Writing through the references `get_subset_unchecked_mut` returned. -/
def setSubset {α : Type} (xs : List α) (indexes : List UInt8) (values : List α) : List α :=
  (indexes.zip values).foldl (fun xs e => xs.set e.1.toNat e.2) xs

/-- `verify_instruction`. -/
def verifyInstruction (programId preProgramId : Pubkey) (preDifs : UInt64) (preData : List UInt8)
    (account : Account) : Outcome InstructionError Unit :=
  if preProgramId ≠ account.owner ∧ programId ≠ SYSTEM_PROGRAM_ID then .err .modifiedProgramId
  else if programId ≠ account.owner ∧ preDifs > account.difs then .err .externalAccountDifSpend
  else if programId ≠ account.owner ∧ programId ≠ SYSTEM_PROGRAM_ID ∧ preData ≠ account.data then
    .err .externalAccountDataModified
  else pure ()

/-- The sum of the difs of some accounts, `iter().map(|a| a.difs).sum()`. -/
def sumDifs (accounts : List Account) : UInt64 := (accounts.map (·.difs)).sum

namespace NativeLoader

/-- `LoaderInstruction`. -/
inductive LoaderInstruction where
  | write (offset : UInt32) (bytes : List UInt8)
  | finalize
  deriving DecidableEq, Repr

/-- Bincode's `LoaderInstruction`: the `u32` variant index, then the fields. -/
def LoaderInstruction.deserialize : Decoder LoaderInstruction := do
  let tag ← u32
  match tag.toNat with
  | 0 => do
    let offset ← u32
    let bytes ← vec byte
    pure (.write offset bytes)
  | 1 => pure .finalize
  | _ => failure

/-- The entry point of the native library of each name; `none` when the name is not UTF-8, or
names no library with an entry point. -/
abbrev Libraries := List UInt8 → Option ProcessInstruction

/-- `native_loader::entrypoint`. -/
def entrypoint (libraries : Libraries) : ProcessInstruction :=
  fun programId keyedAccounts ixData tickHeight => do
    let first ← Outcome.ofOption keyedAccounts[0]?
    if first.account.executable then
      match libraries first.account.data with
      | none => .err .genericError
      | some process => do
        let params ← process programId (keyedAccounts.drop 1) ixData tickHeight
        pure (first :: params)
    else
      match Bincode.deserialize LoaderInstruction.deserialize ixData with
      | none => .err .genericError
      | some instruction =>
        if first.signerKey.isNone then .err .genericError
        else
          match instruction with
          | .write offset bytes =>
            if first.account.data.length < offset.toNat + bytes.length then .err .genericError
            else pure (keyedAccounts.set 0 { first with account := { first.account with data := bytes } })
          | .finalize =>
            pure (keyedAccounts.set 0 { first with account := { first.account with executable := true } })

end NativeLoader

/-- `MessageProcessor`: the programs that run without the loader. -/
structure MessageProcessor where
  instructionProcessors : List (Pubkey × ProcessInstruction)

/-- `MessageProcessor::default()`: the system program only. -/
instance : Inhabited MessageProcessor :=
  ⟨⟨[(SYSTEM_PROGRAM_ID, SystemProgram.processInstruction)]⟩⟩

namespace MessageProcessor

variable (mp : MessageProcessor) (libraries : NativeLoader.Libraries)

/-- `add_instruction_processor`. -/
def addInstructionProcessor (programId : Pubkey) (process : ProcessInstruction) :
    MessageProcessor :=
  ⟨mp.instructionProcessors ++ [(programId, process)]⟩

/-- The keys and signer flags of the accounts `process_instruction` passes for an instruction;
indexing the account keys panics out of bounds. -/
def instructionKeys (message : Message) (instruction : CompiledInstruction) :
    Option (List (Pubkey × Bool)) :=
  instruction.accounts.mapM fun index => do
    let key ← message.accountKeys[index.toNat]?
    pure (key, decide (index.toNat < message.header.numRequiredSignatures.toNat))

/-- `process_instruction`: the keyed accounts as the program left them. -/
def processInstruction (message : Message) (instruction : CompiledInstruction)
    (executableAccounts : List (Pubkey × Account)) (programAccounts : List Account)
    (tickHeight : UInt64) : Outcome InstructionError (List KeyedAccount) := do
  let programId ← Outcome.ofOption message.accountKeys[instruction.programIdsIndex.toNat]?
  let keys ← Outcome.ofOption (instructionKeys message instruction)
  let keyedAccounts := executableAccounts.map (fun e => ⟨e.1, false, e.2⟩) ++
    (keys.zip programAccounts).map fun e => ⟨e.1.1, e.1.2, e.2⟩
  match mp.instructionProcessors.find? (·.1 == programId) with
  | some (_, process) => do
    let rest ← Outcome.ofOption (sliceFrom keyedAccounts 1)
    let rest ← process programId rest instruction.data tickHeight
    pure (keyedAccounts.take 1 ++ rest)
  | none =>
    NativeLoader.entrypoint libraries programId keyedAccounts instruction.data tickHeight

/-- `execute_instruction`: the loader chain and the program accounts after the instruction, once
the accounting rules are checked. -/
def executeInstruction (message : Message) (instruction : CompiledInstruction)
    (executableAccounts : List (Pubkey × Account)) (programAccounts : List Account)
    (tickHeight : UInt64) : Outcome InstructionError (List (Pubkey × Account) × List Account) := do
  let programId ← Outcome.ofOption message.accountKeys[instruction.programIdsIndex.toNat]?
  let preTotal := sumDifs programAccounts
  let keyed ← mp.processInstruction libraries message instruction executableAccounts programAccounts
    tickHeight
  let n := executableAccounts.length
  let executable := (executableAccounts.zip (keyed.take n)).map fun e => (e.1.1, e.2.account)
  let post := (keyed.drop n).map (·.account)
  (programAccounts.zip post).forM fun e =>
    verifyInstruction programId e.1.owner e.1.difs e.1.data e.2
  if preTotal ≠ sumDifs post then .err .unbalancedInstruction
  else pure (executable, post)

/-- The loop of `process_message` over the instructions from `instructionIndex` on. -/
def processInstructions (message : Message) (tickHeight : UInt64) :
    Nat → List CompiledInstruction → List (List (Pubkey × Account)) → List Account →
      Outcome TransactionError (List Account)
  | _, [], _, accounts => pure accounts
  | instructionIndex, instruction :: rest, loaders, accounts => do
    let position ← Outcome.ofOption (message.programPosition instruction.programIdsIndex.toNat)
    let executableIndex ← match position with
      | none => .err .invalidAccountIndex
      | some i => pure i
    let executableAccounts ← Outcome.ofOption loaders[executableIndex]?
    let programAccounts ← (getSubsetUncheckedMut accounts instruction.accounts).mapErr
      (.instructionError (UInt8.ofNat instructionIndex))
    let (executableAccounts, programAccounts) ←
      (mp.executeInstruction libraries message instruction executableAccounts programAccounts
        tickHeight).mapErr (.instructionError (UInt8.ofNat instructionIndex))
    processInstructions message tickHeight (instructionIndex + 1) rest
      (loaders.set executableIndex executableAccounts)
      (setSubset accounts instruction.accounts programAccounts)

/-- `process_message`: the accounts after every instruction succeeded. -/
def processMessage (message : Message) (loaders : List (List (Pubkey × Account)))
    (accounts : List Account) (tickHeight : UInt64) : Outcome TransactionError (List Account) :=
  mp.processInstructions libraries message tickHeight 0 message.instructions loaders accounts

end MessageProcessor

end Morgan
