import Morgan.Interface.Transaction
import Morgan.Runtime.SystemProgram

/-!
# The token program

`token_state.rs` and `token_processor.rs`: a token is an account holding a `TokenInfo` with the
supply; a token account holds the token's key, an owner and an amount.  A delegate token account
names a source account, and its amount is what it may still move out of the source; the
instructions create tokens and token accounts, transfer, approve a delegate and set an owner.

Every account the program owns is read as a `TokenState` from its data: a tag byte, then the
bincode encoding of the state.  `process` reads them all, lets the instruction compute the states
to write at some indices, and writes each over the front of the account's data.  The write goes
through a `BufWriter`, whose flush on drop ignores its errors: an encoding longer than the data is
cut to the data's length, and the write succeeds (`writeTruncated`).  Of `TokenInfo`'s two
strings only the bytes are modelled, not the UTF-8 check of their decoding, and a write of more
than the `BufWriter`'s 8 KiB, which may fail where the model cuts, is not told apart: both only add
runs the program rejects.  The logging is not modelled.
-/

namespace Morgan

namespace Token

open Rust Bincode

/-- `token_api::id()`. -/
def TOKEN_PROGRAM_ID : Pubkey :=
  ⟨#v[6, 221, 246, 225, 142, 57, 236, 63, 240, 189, 82, 112, 85, 219, 2, 165, 51, 122, 113, 201,
    115, 12, 217, 253, 72, 146, 220, 192, 0, 0, 0, 0]⟩

/-- `TokenError`. -/
inductive TokenError where
  | invalidArgument
  | insufficentFunds
  | notOwner
  deriving DecidableEq, Repr

/-- `e as u32`. -/
def TokenError.code : TokenError → UInt32
  | .invalidArgument => 0
  | .insufficentFunds => 1
  | .notOwner => 2

/-- `TokenInfo`; `name` and `symbol` are the bytes of the strings. -/
structure TokenInfo where
  supply : UInt64
  decimals : UInt8
  name : List UInt8
  symbol : List UInt8
  deriving DecidableEq, Repr

/-- `TokenAccountDelegateInfo`. -/
structure TokenAccountDelegateInfo where
  source : Pubkey
  originalAmount : UInt64
  deriving DecidableEq, Repr

/-- `TokenAccountInfo`: with a delegate, `amount` is the allowance left. -/
structure TokenAccountInfo where
  token : Pubkey
  owner : Pubkey
  amount : UInt64
  delegate : Option TokenAccountDelegateInfo
  deriving DecidableEq, Repr

/-- `TokenInstruction`. -/
inductive TokenInstruction where
  | newToken (info : TokenInfo)
  | newTokenAccount
  | transfer (amount : UInt64)
  | approve (amount : UInt64)
  | setOwner
  deriving DecidableEq, Repr

/-- `TokenState`. -/
inductive TokenState where
  | unallocated
  | token (info : TokenInfo)
  | account (info : TokenAccountInfo)
  | invalid
  deriving DecidableEq, Repr

/-! ## Encodings -/

/-- A `String`: its length as a `u64`, then its bytes. -/
def string : Decoder (List UInt8) := do
  let n ← u64
  bytes n.toNat

def encodeString (s : List UInt8) : List UInt8 := encodeU64 (UInt64.ofNat s.length) ++ s

def TokenInfo.deserialize : Decoder TokenInfo := do
  let supply ← u64
  let decimals ← byte
  let name ← string
  let symbol ← string
  pure ⟨supply, decimals, name, symbol⟩

def TokenInfo.serialize (info : TokenInfo) : List UInt8 :=
  encodeU64 info.supply ++ [info.decimals] ++ encodeString info.name ++ encodeString info.symbol

def TokenAccountDelegateInfo.deserialize : Decoder TokenAccountDelegateInfo := do
  let source ← Pubkey.deserialize
  let originalAmount ← u64
  pure ⟨source, originalAmount⟩

def TokenAccountDelegateInfo.serialize (info : TokenAccountDelegateInfo) : List UInt8 :=
  info.source.bytes.toList ++ encodeU64 info.originalAmount

def TokenAccountInfo.deserialize : Decoder TokenAccountInfo := do
  let token ← Pubkey.deserialize
  let owner ← Pubkey.deserialize
  let amount ← u64
  let delegate ← option TokenAccountDelegateInfo.deserialize
  pure ⟨token, owner, amount, delegate⟩

def TokenAccountInfo.serialize (info : TokenAccountInfo) : List UInt8 :=
  info.token.bytes.toList ++ info.owner.bytes.toList ++ encodeU64 info.amount ++
    encodeOption TokenAccountDelegateInfo.serialize info.delegate

def TokenInstruction.deserialize : Decoder TokenInstruction := do
  let tag ← u32
  match tag.toNat with
  | 0 => .newToken <$> TokenInfo.deserialize
  | 1 => pure .newTokenAccount
  | 2 => .transfer <$> u64
  | 3 => .approve <$> u64
  | 4 => pure .setOwner
  | _ => failure

def TokenInstruction.serialize : TokenInstruction → List UInt8
  | .newToken info => encodeU32 0 ++ info.serialize
  | .newTokenAccount => encodeU32 1
  | .transfer amount => encodeU32 2 ++ encodeU64 amount
  | .approve amount => encodeU32 3 ++ encodeU64 amount
  | .setOwner => encodeU32 4

/-- `TokenState::deserialize`: the tag byte, then the state's encoding. -/
def TokenState.deserialize (input : List UInt8) : Except TokenError TokenState :=
  match input with
  | 0 :: _ => .ok .unallocated
  | 1 :: rest =>
    match Bincode.deserialize TokenInfo.deserialize rest with
    | some info => .ok (.token info)
    | none => .error .invalidArgument
  | 2 :: rest =>
    match Bincode.deserialize TokenAccountInfo.deserialize rest with
    | some info => .ok (.account info)
    | none => .error .invalidArgument
  | _ => .error .invalidArgument

theorem TokenState.deserialize_nil : TokenState.deserialize [] = .error .invalidArgument := rfl

theorem TokenState.deserialize_zero_cons (rest : List UInt8) :
    TokenState.deserialize (0 :: rest) = .ok .unallocated := rfl

theorem TokenState.deserialize_one_cons (rest : List UInt8) :
    TokenState.deserialize (1 :: rest) =
      match Bincode.deserialize TokenInfo.deserialize rest with
      | some info => .ok (.token info)
      | none => .error .invalidArgument := rfl

theorem TokenState.deserialize_two_cons (rest : List UInt8) :
    TokenState.deserialize (2 :: rest) =
      match Bincode.deserialize TokenAccountInfo.deserialize rest with
      | some info => .ok (.account info)
      | none => .error .invalidArgument := rfl

/-- What a `BufWriter` over a slice leaves in it: the encoding over the front, cut to the slice's
length. -/
def writeTruncated (encoding slice : List UInt8) : List UInt8 :=
  (encoding ++ slice.drop encoding.length).take slice.length

/-- `TokenState::serialize` into an account's data: the tag byte, then the encoding written over
the rest. -/
def TokenState.serialize (state : TokenState) (output : List UInt8) : Except TokenError (List UInt8) :=
  match output with
  | [] => .error .invalidArgument
  | _ :: rest =>
    match state with
    | .token info => .ok (1 :: writeTruncated info.serialize rest)
    | .account info => .ok (2 :: writeTruncated info.serialize rest)
    | .unallocated | .invalid => .error .invalidArgument

theorem TokenState.serialize_nil (state : TokenState) :
    state.serialize [] = .error .invalidArgument := rfl

theorem TokenState.serialize_token_cons (info : TokenInfo) (b : UInt8) (rest : List UInt8) :
    (TokenState.token info).serialize (b :: rest) = .ok (1 :: writeTruncated info.serialize rest) :=
  rfl

theorem TokenState.serialize_account_cons (info : TokenAccountInfo) (b : UInt8)
    (rest : List UInt8) :
    (TokenState.account info).serialize (b :: rest) =
      .ok (2 :: writeTruncated info.serialize rest) := rfl

/-! ## The instructions -/

/-- The key of `info[i]`; indexing past the end panics. -/
def keyAt (info : List KeyedAccount) (i : Nat) : Outcome TokenError Pubkey :=
  match info[i]? with
  | some k => .ok k.unsignedKey
  | none => .panic

/-- `info[0].signer_key().unwrap()`. -/
def signerKey (info : List KeyedAccount) : Outcome TokenError Pubkey :=
  match info[0]? with
  | some k =>
    match k.signerKey with
    | some key => .ok key
    | none => .panic
  | none => .panic

/-- `process_newtoken`: the token's own account, unallocated, takes the token; the token account
at index 1, of the token and not a delegate, takes the whole supply. -/
def processNewtoken (info : List KeyedAccount) (tokenInfo : TokenInfo)
    (inputAccounts : List TokenState) : Outcome TokenError (List (Nat × TokenState)) :=
  if inputAccounts.length ≠ 2 then .err .invalidArgument
  else
    match inputAccounts[1]? with
    | some (TokenState.account destAccount) => do
      let signer ← signerKey info
      if signer ≠ destAccount.token then .err .invalidArgument
      else if destAccount.delegate.isSome then .err .invalidArgument
      else if inputAccounts[0]? ≠ some .unallocated then .err .invalidArgument
      else pure [(1, .account { destAccount with amount := tokenInfo.supply }), (0, .token tokenInfo)]
    | _ => .err .invalidArgument

/-- `process_newaccount`: an unallocated account becomes a token account of the token at index 2,
owned by the key at index 1, and a delegate of the key at index 3 when there is one; neither key
is checked. -/
def processNewaccount (info : List KeyedAccount) (inputAccounts : List TokenState) :
    Outcome TokenError (List (Nat × TokenState)) :=
  if inputAccounts.length < 3 then .err .invalidArgument
  else if inputAccounts[0]? ≠ some .unallocated then .err .invalidArgument
  else do
    let token ← keyAt info 2
    let owner ← keyAt info 1
    let delegate ← if 4 ≤ inputAccounts.length then
        (fun source => some ⟨source, 0⟩) <$> keyAt info 3
      else pure none
    pure [(0, .account ⟨token, owner, 0, delegate⟩)]

/-- The part of `process_transfer` a delegate source adds: the account at index 3, the delegate's
source, of the same token, pays too. -/
def transferFromSource (info : List KeyedAccount) (amount : UInt64) (inputAccounts : List TokenState)
    (delegateAccount : TokenAccountInfo) (delegateInfo : TokenAccountDelegateInfo) :
    Outcome TokenError (List (Nat × TokenState)) :=
  if inputAccounts.length ≠ 4 then .err .invalidArgument
  else
    match inputAccounts[3]? with
    | some (TokenState.account sourceAccount) => do
      if sourceAccount.token ≠ delegateAccount.token then .err .invalidArgument
      else
        let sourceKey ← keyAt info 3
        if sourceKey ≠ delegateInfo.source then .err .invalidArgument
        else if sourceAccount.amount < amount then .err .insufficentFunds
        else pure [(3, .account { sourceAccount with amount := sourceAccount.amount - amount })]
    | _ => .err .invalidArgument

/-- `process_transfer`: from the account at index 1, owned by the signer, to the one at index 2, of
the same token and not a delegate; a delegate at index 1 spends its allowance and its source pays. -/
def processTransfer (info : List KeyedAccount) (amount : UInt64) (inputAccounts : List TokenState) :
    Outcome TokenError (List (Nat × TokenState)) :=
  if inputAccounts.length < 3 then .err .invalidArgument
  else
    match inputAccounts[1]?, inputAccounts[2]? with
    | some (TokenState.account sourceAccount), some (TokenState.account destAccount) => do
      if sourceAccount.token ≠ destAccount.token then .err .invalidArgument
      else if destAccount.delegate.isSome then .err .invalidArgument
      else
        let signer ← signerKey info
        if signer ≠ sourceAccount.owner then .err .invalidArgument
        else if sourceAccount.amount < amount then .err .insufficentFunds
        else
          let fromSource ← match sourceAccount.delegate with
            | some delegateInfo =>
              transferFromSource info amount inputAccounts sourceAccount delegateInfo
            | none => pure []
          pure ((1, .account { sourceAccount with amount := sourceAccount.amount - amount }) ::
            fromSource ++ [(2, .account { destAccount with amount := destAccount.amount + amount })])
    | _, _ => .err .invalidArgument

/-- `process_approve`: the owner of a token account that is not a delegate sets the allowance of a
delegate of it, whatever the account holds. -/
def processApprove (info : List KeyedAccount) (amount : UInt64) (inputAccounts : List TokenState) :
    Outcome TokenError (List (Nat × TokenState)) :=
  if inputAccounts.length ≠ 3 then .err .invalidArgument
  else
    match inputAccounts[1]?, inputAccounts[2]? with
    | some (TokenState.account sourceAccount), some (TokenState.account delegateAccount) => do
      if sourceAccount.token ≠ delegateAccount.token then .err .invalidArgument
      else
        let signer ← signerKey info
        if signer ≠ sourceAccount.owner then .err .invalidArgument
        else if sourceAccount.delegate.isSome then .err .invalidArgument
        else
          match delegateAccount.delegate with
          | none => .err .invalidArgument
          | some delegateInfo => do
            let sourceKey ← keyAt info 1
            if sourceKey ≠ delegateInfo.source then .err .invalidArgument
            else
              pure [(2, .account { delegateAccount with
                amount, delegate := some ⟨delegateInfo.source, amount⟩ })]
    | _, _ => .err .invalidArgument

/-- `process_setowner`: the owner of the token account at index 1 hands it to the key at index 2. -/
def processSetowner (info : List KeyedAccount) (inputAccounts : List TokenState) :
    Outcome TokenError (List (Nat × TokenState)) :=
  if inputAccounts.length < 3 then .err .invalidArgument
  else
    match inputAccounts[1]? with
    | some (TokenState.account sourceAccount) => do
      let signer ← signerKey info
      if signer ≠ sourceAccount.owner then .err .invalidArgument
      else
        let owner ← keyAt info 2
        pure [(1, .account { sourceAccount with owner })]
    | _ => .err .invalidArgument

/-! ## The processor -/

/-- The state the program reads from an account: accounts of other programs and data that does
not decode are `Invalid`. -/
def inputState (programId : Pubkey) (k : KeyedAccount) : TokenState :=
  if k.account.owner = programId then
    match TokenState.deserialize k.account.data with
    | .ok state => state
    | .error _ => .invalid
  else .invalid

/-- Write one output state into the account at its index. -/
def writeOutput (info : List KeyedAccount) (output : Nat × TokenState) :
    Outcome TokenError (List KeyedAccount) :=
  match info[output.1]? with
  | some k =>
    match output.2.serialize k.account.data with
    | .ok data => .ok (info.set output.1 { k with account := { k.account with data } })
    | .error e => .err e
  | none => .panic

/-- The `match command` of `process`: the states an instruction writes, with their indices. -/
def processCommand (info : List KeyedAccount) (command : TokenInstruction)
    (inputAccounts : List TokenState) : Outcome TokenError (List (Nat × TokenState)) :=
  match command with
  | .newToken tokenInfo => processNewtoken info tokenInfo inputAccounts
  | .newTokenAccount => processNewaccount info inputAccounts
  | .transfer amount => processTransfer info amount inputAccounts
  | .approve amount => processApprove info amount inputAccounts
  | .setOwner => processSetowner info inputAccounts

/-- `TokenState::process`. -/
def process (programId : Pubkey) (info : List KeyedAccount) (input : List UInt8) :
    Outcome TokenError (List KeyedAccount) :=
  match Bincode.deserialize TokenInstruction.deserialize input with
  | none => .err .invalidArgument
  | some command =>
    match info[0]? with
    | none => .panic
    | some first =>
      if first.signerKey.isNone then .err .invalidArgument
      else do
        let outputAccounts ← processCommand info command (info.map (inputState programId))
        outputAccounts.foldlM writeOutput info

/-- `process_instruction` of the token program: a `TokenError` is returned as its code. -/
def processInstruction : ProcessInstruction := fun programId info input _ =>
  (process programId info input).mapErr fun e => .customError e.code

end Token

end Morgan
