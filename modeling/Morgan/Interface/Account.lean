import Morgan.Interface.Transaction

/-!
# Accounts and the errors of the runtime

`account.rs`, `instruction.rs`, `transaction.rs` and `fee_calculator.rs`: an account holds difs,
reputations, data, the program that owns it and whether it is executable.  A program sees its
accounts as `KeyedAccount`s: the account with its key and whether that key signed.  Balances are
`u64`; release builds wrap their arithmetic, and so does `UInt64`.
-/

namespace Morgan

/-- `Account`. -/
structure Account where
  difs : UInt64
  reputations : UInt64
  data : List UInt8
  owner : Pubkey
  executable : Bool
  deriving DecidableEq, Repr

instance : Inhabited Account := ⟨⟨0, 0, [], default, false⟩⟩

/-- `KeyedAccount`. -/
structure KeyedAccount where
  key : Pubkey
  isSigner : Bool
  account : Account
  deriving DecidableEq, Repr

namespace KeyedAccount

/-- `signer_key`. -/
def signerKey (k : KeyedAccount) : Option Pubkey := if k.isSigner then some k.key else none

/-- `unsigned_key`. -/
def unsignedKey (k : KeyedAccount) : Pubkey := k.key

end KeyedAccount

/-- `InstructionError`. -/
inductive InstructionError where
  | genericError
  | invalidArgument
  | invalidInstructionData
  | invalidAccountData
  | accountDataTooSmall
  | incorrectProgramId
  | missingRequiredSignature
  | accountAlreadyInitialized
  | uninitializedAccount
  | unbalancedInstruction
  | modifiedProgramId
  | externalAccountDifSpend
  | externalAccountDataModified
  | duplicateAccountIndex
  | customError (code : UInt32)
  deriving DecidableEq, Repr

/-- `TransactionError`. -/
inductive TransactionError where
  | accountInUse
  | accountLoadedTwice
  | accountNotFound
  | programAccountNotFound
  | insufficientFundsForFee
  | invalidAccountForFee
  | duplicateSignature
  | blockhashNotFound
  | instructionError (index : UInt8) (err : InstructionError)
  | callChainTooDeep
  | missingSignatureForFee
  | invalidAccountIndex
  deriving DecidableEq, Repr

/-- `FeeCalculator`. -/
structure FeeCalculator where
  difsPerSignature : UInt64
  deriving DecidableEq, Repr

/-- `calculate_fee`: a fee for each required signature. -/
def FeeCalculator.calculateFee (f : FeeCalculator) (message : Message) : UInt64 :=
  f.difsPerSignature * message.header.numRequiredSignatures.toUInt64

/-- `system_program::id()`: thirty-two zero bytes, which is also `Pubkey::default()`. -/
def SYSTEM_PROGRAM_ID : Pubkey := default

/-- `native_loader::id()`. -/
def NATIVE_LOADER_ID : Pubkey :=
  ⟨#v[5, 135, 132, 191, 20, 139, 164, 40, 47, 176, 18, 87, 72, 136, 169, 241, 83, 160, 125, 173,
    247, 101, 192, 69, 92, 154, 151, 3, 128, 0, 0, 0]⟩

/-- `native_loader::create_loadable_account(name)`. -/
def createLoadableAccount (name : List UInt8) : Account := ⟨1, 0, name, NATIVE_LOADER_ID, true⟩

end Morgan
