import Mathlib
import Morgan.Interface.Transaction
import Morgan.Runtime.SystemProgram

/-!
# The exchange program

`exchange_state.rs`, `exchange_instruction.rs` and `exchange_processor.rs`: an exchange account
holds an `ExchangeState`, bincode-encoded in its data: nothing yet, a token account (an owner and a
balance of each of four tokens), or a trade order on a pair of tokens (an owner, a direction, an
escrowed amount, a price and the tokens settled so far).  Five instructions create a token account
with 100 000 of each token, transfer tokens (from the faucet, which mints them, from a token
account or from the settled tokens of a trade), open a trade, cancel one and swap two opposite
trades, paying the rounding profit to a third account.

Owners are compared with `keyed_accounts[0].unsigned_key()`; no handler reads `signer_key`.
Arithmetic is that of the release build: `u64` wraps.  `serialize` writes through a `BufWriter`
over the account's data, whose flush on drop ignores its error: an encoding longer than the data is
cut to the data's length and the call returns `Ok`.  The message of an `ExchangeError`, which the
one caller discards, is left out.
-/

namespace Morgan

namespace Exchange

open Rust Bincode

/-- `SCALER`: prices and amounts are fixed point with three decimal digits. -/
def SCALER : UInt64 := 1000

/-- `Token`. -/
inductive Token where
  | A | B | C | D
  deriving DecidableEq, Repr

/-- `Tokens`: a balance of each token. -/
structure Tokens where
  A : UInt64
  B : UInt64
  C : UInt64
  D : UInt64
  deriving DecidableEq, Repr

namespace Tokens

/-- `Index<Token>`. -/
def get (t : Tokens) : Token → UInt64
  | .A => t.A
  | .B => t.B
  | .C => t.C
  | .D => t.D

/-- `IndexMut<Token>`: write one balance. -/
def set (t : Tokens) : Token → UInt64 → Tokens
  | .A, v => { t with A := v }
  | .B, v => { t with B := v }
  | .C, v => { t with C := v }
  | .D, v => { t with D := v }

/-- The zero balances of `Tokens::default()`. -/
def zero : Tokens := ⟨0, 0, 0, 0⟩

end Tokens

/-- `TokenPair`. -/
inductive TokenPair where
  | AB | AC | AD | BC | BD | CD
  deriving DecidableEq, Repr

/-- `TokenPair::primary`. -/
def TokenPair.primary : TokenPair → Token
  | .AB | .AC | .AD => .A
  | .BC | .BD => .B
  | .CD => .C

/-- `TokenPair::secondary`. -/
def TokenPair.secondary : TokenPair → Token
  | .AB => .B
  | .AC | .BC => .C
  | .AD | .BD | .CD => .D

/-- `Direction`: a `To` trade sells the primary token for the secondary, a `From` trade the other
way. -/
inductive Direction where
  | To | From
  deriving DecidableEq, Repr

/-- `TokenAccountInfo`. -/
structure TokenAccountInfo where
  owner : Pubkey
  tokens : Tokens
  deriving DecidableEq, Repr

/-- `TradeOrderInfo`. -/
structure TradeOrderInfo where
  owner : Pubkey
  direction : Direction
  pair : TokenPair
  tokens : UInt64
  price : UInt64
  tokensSettled : UInt64
  deriving DecidableEq, Repr

/-- `ExchangeState`. -/
inductive ExchangeState where
  | unallocated
  | account (info : TokenAccountInfo)
  | trade (info : TradeOrderInfo)
  | invalid
  deriving DecidableEq, Repr

/-- `TradeRequestInfo`. -/
structure TradeRequestInfo where
  direction : Direction
  pair : TokenPair
  tokens : UInt64
  price : UInt64
  deriving DecidableEq, Repr

/-- `ExchangeInstruction`. -/
inductive ExchangeInstruction where
  | accountRequest
  | transferRequest (token : Token) (tokens : UInt64)
  | tradeRequest (info : TradeRequestInfo)
  | tradeCancellation
  | swapRequest
  deriving DecidableEq, Repr

/-! ## Bincode

An enum is its `u32` variant index, then its fields; a struct is its fields in order. -/

/-- An enum's variant index. -/
def variant (tag : Nat) : List UInt8 := encodeU32 (UInt32.ofNat tag)

/-- Decoding the variant index of an enum with the given variants. -/
def decodeVariant {α : Type} (variants : List α) : Decoder α := do
  let tag ← u32
  match variants[tag.toNat]? with
  | some a => pure a
  | none => failure

def Token.index : Token → Nat
  | .A => 0 | .B => 1 | .C => 2 | .D => 3

def Token.deserialize : Decoder Token := decodeVariant [.A, .B, .C, .D]

def TokenPair.index : TokenPair → Nat
  | .AB => 0 | .AC => 1 | .AD => 2 | .BC => 3 | .BD => 4 | .CD => 5

def TokenPair.deserialize : Decoder TokenPair := decodeVariant [.AB, .AC, .AD, .BC, .BD, .CD]

def Direction.index : Direction → Nat
  | .To => 0 | .From => 1

def Direction.deserialize : Decoder Direction := decodeVariant [.To, .From]

def Tokens.deserialize : Decoder Tokens := do
  let a ← u64
  let b ← u64
  let c ← u64
  let d ← u64
  pure ⟨a, b, c, d⟩

def Tokens.serialize (t : Tokens) : List UInt8 :=
  encodeU64 t.A ++ encodeU64 t.B ++ encodeU64 t.C ++ encodeU64 t.D

def TokenAccountInfo.deserialize : Decoder TokenAccountInfo := do
  let owner ← Pubkey.deserialize
  let tokens ← Tokens.deserialize
  pure ⟨owner, tokens⟩

def TokenAccountInfo.serialize (info : TokenAccountInfo) : List UInt8 :=
  info.owner.bytes.toList ++ info.tokens.serialize

def TradeOrderInfo.deserialize : Decoder TradeOrderInfo := do
  let owner ← Pubkey.deserialize
  let direction ← Direction.deserialize
  let pair ← TokenPair.deserialize
  let tokens ← u64
  let price ← u64
  let tokensSettled ← u64
  pure ⟨owner, direction, pair, tokens, price, tokensSettled⟩

def TradeOrderInfo.serialize (info : TradeOrderInfo) : List UInt8 :=
  info.owner.bytes.toList ++ variant info.direction.index ++ variant info.pair.index ++
    encodeU64 info.tokens ++ encodeU64 info.price ++ encodeU64 info.tokensSettled

def ExchangeState.deserialize : Decoder ExchangeState := do
  let tag ← u32
  match tag.toNat with
  | 0 => pure .unallocated
  | 1 => .account <$> TokenAccountInfo.deserialize
  | 2 => .trade <$> TradeOrderInfo.deserialize
  | 3 => pure .invalid
  | _ => failure

def ExchangeState.serialize : ExchangeState → List UInt8
  | .unallocated => variant 0
  | .account info => variant 1 ++ info.serialize
  | .trade info => variant 2 ++ info.serialize
  | .invalid => variant 3

def ExchangeInstruction.deserialize : Decoder ExchangeInstruction := do
  let tag ← u32
  match tag.toNat with
  | 0 => pure .accountRequest
  | 1 => do
    let token ← Token.deserialize
    let tokens ← u64
    pure (.transferRequest token tokens)
  | 2 => do
    let direction ← Direction.deserialize
    let pair ← TokenPair.deserialize
    let tokens ← u64
    let price ← u64
    pure (.tradeRequest ⟨direction, pair, tokens, price⟩)
  | 3 => pure .tradeCancellation
  | 4 => pure .swapRequest
  | _ => failure

def ExchangeInstruction.serialize : ExchangeInstruction → List UInt8
  | .accountRequest => variant 0
  | .transferRequest token tokens => variant 1 ++ variant token.index ++ encodeU64 tokens
  | .tradeRequest info =>
    variant 2 ++ variant info.direction.index ++ variant info.pair.index ++ encodeU64 info.tokens ++
      encodeU64 info.price
  | .tradeCancellation => variant 3
  | .swapRequest => variant 4

/-- `EXCHANGE_PROGRAM_ID`, the program's key. -/
def EXCHANGE_PROGRAM_ID : Pubkey :=
  ⟨#v[3, 147, 111, 103, 210, 47, 14, 213, 108, 116, 49, 115, 232, 171, 14, 111, 167, 140, 221,
    234, 33, 70, 185, 192, 42, 31, 141, 152, 0, 0, 0, 0]⟩

/-- `faucet_id()`, the key `EXCHANGE_FAUCET_ID`. -/
def faucetId : Pubkey :=
  ⟨#v[3, 147, 111, 103, 210, 47, 23, 11, 176, 29, 147, 89, 237, 155, 21, 62, 107, 105, 157, 1, 98,
    204, 206, 211, 54, 212, 79, 15, 160, 0, 0, 0]⟩

/-! ## The processor -/

/-- An account's data decoded; bytes that are no `ExchangeState` are `InvalidArgument`
(`map_to_invalid_arg`). -/
def deserializeState (data : List UInt8) : Outcome InstructionError ExchangeState :=
  match Bincode.deserialize ExchangeState.deserialize data with
  | some s => .ok s
  | none => .err .invalidArgument

/-- `is_account_unallocated`. -/
def isAccountUnallocated (data : List UInt8) : Outcome InstructionError Unit := do
  match ← deserializeState data with
  | .unallocated => pure ()
  | _ => .err .invalidAccountData

/-- `deserialize_account`. -/
def deserializeAccount (data : List UInt8) : Outcome InstructionError TokenAccountInfo := do
  match ← deserializeState data with
  | .account info => pure info
  | _ => .err .invalidAccountData

/-- `deserialize_trade`. -/
def deserializeTrade (data : List UInt8) : Outcome InstructionError TradeOrderInfo := do
  match ← deserializeState data with
  | .trade info => pure info
  | _ => .err .invalidAccountData

/-- `serialize`: the encoding over the front of the data, cut to the data's length. -/
def serialize (state : ExchangeState) (data : List UInt8) : List UInt8 :=
  (state.serialize ++ data.drop state.serialize.length).take data.length

/-- The data of the keyed account at an index; indexing past the end panics. -/
def dataAt (keyedAccounts : List KeyedAccount) (i : Nat) : Outcome InstructionError (List UInt8) :=
  Outcome.ofOption (keyedAccounts[i]?.map (·.account.data))

/-- The key of the keyed account at an index (`unsigned_key`). -/
def keyAt (keyedAccounts : List KeyedAccount) (i : Nat) : Outcome InstructionError Pubkey :=
  Outcome.ofOption (keyedAccounts[i]?.map (·.key))

/-- `serialize` into the data of the keyed account at an index. -/
def writeState (keyedAccounts : List KeyedAccount) (i : Nat) (state : ExchangeState) :
    Outcome InstructionError (List KeyedAccount) :=
  Outcome.ofOption
    (updateAccount keyedAccounts i fun a => { a with data := serialize state a.data })

/-- `trade_to_token_account`: the settled tokens of a trade as a token account of its owner. -/
def tradeToTokenAccount (trade : TradeOrderInfo) : TokenAccountInfo :=
  let token := match trade.direction with
    | .To => trade.pair.secondary
    | .From => trade.pair.primary
  ⟨trade.owner, Tokens.zero.set token trade.tokensSettled⟩

/-- `check_trade`: whether a trade can be filled at all; a `From` trade at price zero divides by
zero. -/
def checkTrade (direction : Direction) (tokens price : UInt64) : Outcome Unit Unit :=
  match direction with
  | .To => if tokens * price / SCALER = 0 then .err () else .ok ()
  | .From => if price = 0 then .panic else if tokens * SCALER / price = 0 then .err () else .ok ()

/-- `calculate_swap`: fill two opposite trades against each other at their prices; the rounding
profit goes to the profit account. -/
def calculateSwap (scaler : UInt64) (toTrade fromTrade : TradeOrderInfo)
    (profitAccount : TokenAccountInfo) :
    Outcome InstructionError (TradeOrderInfo × TradeOrderInfo × TokenAccountInfo) :=
  if toTrade.tokens = 0 ∨ fromTrade.tokens = 0 then .err .invalidArgument
  else if toTrade.price = 0 ∨ fromTrade.price = 0 then .err .invalidArgument
  else
    let maxToSecondary := toTrade.tokens * toTrade.price / scaler
    let maxToPrimary := fromTrade.tokens * scaler / fromTrade.price
    let maxPrimary := min maxToPrimary toTrade.tokens
    let maxSecondary := min maxToSecondary fromTrade.tokens
    let primaryTokens :=
      if maxSecondary < maxPrimary then maxSecondary * scaler / fromTrade.price else maxPrimary
    let secondaryTokens :=
      if maxSecondary < maxPrimary then maxSecondary else maxPrimary * toTrade.price / scaler
    if primaryTokens = 0 ∨ secondaryTokens = 0 then .err .invalidArgument
    else
      let primaryCost := max primaryTokens (secondaryTokens * scaler / toTrade.price)
      let secondaryCost := max secondaryTokens (primaryTokens * fromTrade.price / scaler)
      let primaryProfit := primaryCost - primaryTokens
      let secondaryProfit := secondaryCost - secondaryTokens
      let primaryToken := toTrade.pair.primary
      let secondaryToken := fromTrade.pair.secondary
      if toTrade.tokens < primaryCost then .err .invalidArgument
      else if fromTrade.tokens < secondaryCost then .err .invalidArgument
      else
        let profitTokens := profitAccount.tokens.set primaryToken
          (profitAccount.tokens.get primaryToken + primaryProfit)
        let profitTokens := profitTokens.set secondaryToken
          (profitTokens.get secondaryToken + secondaryProfit)
        .ok ({ toTrade with
                tokens := toTrade.tokens - primaryCost
                tokensSettled := toTrade.tokensSettled + secondaryTokens },
             { fromTrade with
                tokens := fromTrade.tokens - secondaryCost
                tokensSettled := fromTrade.tokensSettled + primaryTokens },
             { profitAccount with tokens := profitTokens })

/-- `do_account_request`: a new token account of the first key, with 100 000 of each token. -/
def doAccountRequest (keyedAccounts : List KeyedAccount) :
    Outcome InstructionError (List KeyedAccount) :=
  if keyedAccounts.length < 2 then .err .invalidArgument
  else do
    isAccountUnallocated (← dataAt keyedAccounts 1)
    let owner ← keyAt keyedAccounts 0
    writeState keyedAccounts 1 (.account ⟨owner, ⟨100000, 100000, 100000, 100000⟩⟩)

/-- The token a trade's settled tokens are in: the secondary of a `To` trade, the primary of a
`From` trade. -/
def TradeOrderInfo.settledToken (trade : TradeOrderInfo) : Token :=
  match trade.direction with
  | .To => trade.pair.secondary
  | .From => trade.pair.primary

/-- `do_transfer_request`: tokens from the faucet, from a token account, or from the settled tokens
of a trade, into a token account.  The source's owner must be the first key. -/
def doTransferRequest (keyedAccounts : List KeyedAccount) (token : Token) (tokens : UInt64) :
    Outcome InstructionError (List KeyedAccount) :=
  if keyedAccounts.length < 3 then .err .invalidArgument
  else do
    let toAccount ← deserializeAccount (← dataAt keyedAccounts 1)
    let owner ← keyAt keyedAccounts 0
    let credit (account : TokenAccountInfo) : TokenAccountInfo :=
      { account with tokens := account.tokens.set token (account.tokens.get token + tokens) }
    if faucetId = (← keyAt keyedAccounts 2) then
      writeState keyedAccounts 1 (.account (credit toAccount))
    else
      match ← deserializeState (← dataAt keyedAccounts 2) with
      | .account fromAccount =>
        if fromAccount.owner ≠ owner then .err .genericError
        else if fromAccount.tokens.get token < tokens then .err .genericError
        else
          let fromAccount :=
            { fromAccount with
              tokens := fromAccount.tokens.set token (fromAccount.tokens.get token - tokens) }
          let keyedAccounts ← writeState keyedAccounts 2 (.account fromAccount)
          writeState keyedAccounts 1 (.account (credit toAccount))
      | .trade fromTrade =>
        if fromTrade.owner ≠ owner then .err .genericError
        else if token ≠ fromTrade.settledToken then .err .genericError
        else if fromTrade.tokensSettled < tokens then .err .genericError
        else
          let fromTrade := { fromTrade with tokensSettled := fromTrade.tokensSettled - tokens }
          let keyedAccounts ← writeState keyedAccounts 2 (.trade fromTrade)
          writeState keyedAccounts 1 (.account (credit toAccount))
      | _ => .err .invalidArgument

/-- The token a trade escrows: the primary of a `To` trade, the secondary of a `From` trade. -/
def escrowToken (direction : Direction) (pair : TokenPair) : Token :=
  match direction with
  | .To => pair.primary
  | .From => pair.secondary

/-- `do_trade_request`: move the escrow out of the owner's token account into a new trade. -/
def doTradeRequest (keyedAccounts : List KeyedAccount) (info : TradeRequestInfo) :
    Outcome InstructionError (List KeyedAccount) :=
  if keyedAccounts.length < 3 then .err .invalidArgument
  else do
    isAccountUnallocated (← dataAt keyedAccounts 1)
    let account ← deserializeAccount (← dataAt keyedAccounts 2)
    let owner ← keyAt keyedAccounts 0
    if account.owner ≠ owner then .err .genericError
    else
      let fromToken := escrowToken info.direction info.pair
      if account.tokens.get fromToken < info.tokens then .err .genericError
      else
        -- the error of `check_trade` is serialized and dropped; only its panic remains
        match checkTrade info.direction info.tokens info.price with
        | .panic => .panic
        | _ =>
          let account := { account with
            tokens := account.tokens.set fromToken (account.tokens.get fromToken - info.tokens) }
          let keyedAccounts ← writeState keyedAccounts 1
            (.trade ⟨owner, info.direction, info.pair, info.tokens, info.price, 0⟩)
          writeState keyedAccounts 2 (.account account)

/-- `do_trade_cancellation`: the trade becomes a token account of its owner holding its escrow and
its settled tokens, both in the escrowed token. -/
def doTradeCancellation (keyedAccounts : List KeyedAccount) :
    Outcome InstructionError (List KeyedAccount) :=
  if keyedAccounts.length < 2 then .err .invalidArgument
  else do
    let trade ← deserializeTrade (← dataAt keyedAccounts 1)
    let owner ← keyAt keyedAccounts 0
    if trade.owner ≠ owner then .err .genericError
    else
      let token := escrowToken trade.direction trade.pair
      let tokens := Tokens.zero.set token trade.tokens
      let tokens := tokens.set token (tokens.get token + trade.tokensSettled)
      writeState keyedAccounts 1 (.account ⟨trade.owner, tokens⟩)

/-- `do_swap_request`: fill a `To` trade against a `From` trade on the same pair.  A trade whose
escrow is spent becomes a token account, and both use the `From` trade's settled tokens. -/
def doSwapRequest (keyedAccounts : List KeyedAccount) :
    Outcome InstructionError (List KeyedAccount) :=
  if keyedAccounts.length < 4 then .err .invalidArgument
  else do
    let toTrade ← deserializeTrade (← dataAt keyedAccounts 1)
    let fromTrade ← deserializeTrade (← dataAt keyedAccounts 2)
    let profitAccount ← deserializeAccount (← dataAt keyedAccounts 3)
    if toTrade.direction ≠ .To then .err .invalidArgument
    else if fromTrade.direction ≠ .From then .err .invalidArgument
    else if toTrade.pair ≠ fromTrade.pair then .err .invalidArgument
    else if toTrade.direction = fromTrade.direction then .err .invalidArgument
    else
      let (toTrade, fromTrade, profitAccount) ←
        calculateSwap SCALER toTrade fromTrade profitAccount
      let keyedAccounts ← writeState keyedAccounts 1
        (if toTrade.tokens = 0 then .account (tradeToTokenAccount fromTrade) else .trade toTrade)
      let keyedAccounts ← writeState keyedAccounts 2
        (if fromTrade.tokens = 0 then .account (tradeToTokenAccount fromTrade)
         else .trade fromTrade)
      writeState keyedAccounts 3 (.account profitAccount)

/-- `process_instruction` of the exchange program. -/
def processInstruction : ProcessInstruction := fun _ keyedAccounts data _ =>
  match Bincode.deserialize ExchangeInstruction.deserialize data with
  | none => .err .invalidInstructionData
  | some .accountRequest => doAccountRequest keyedAccounts
  | some (.transferRequest token tokens) => doTransferRequest keyedAccounts token tokens
  | some (.tradeRequest info) => doTradeRequest keyedAccounts info
  | some .tradeCancellation => doTradeCancellation keyedAccounts
  | some .swapRequest => doSwapRequest keyedAccounts

end Exchange

end Morgan
