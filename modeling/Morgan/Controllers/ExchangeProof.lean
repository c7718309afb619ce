import Mathlib
import Morgan.Controllers.Exchange

/-!
# What the exchange program guarantees

The holdings of an exchange account in a token: a token account's balance; a trade's escrow in the
token it escrows and its settled tokens in the token it buys (`holding`).

No handler reads a signer flag: the program's result is the same when every flag is cleared
(`processInstruction_unsigned`).  An account's tokens leave it whenever its owner's key is the
first keyed account, signed or not (`transfer_without_owner_signature`).  A cancelled trade puts
its settled tokens back into the token it escrowed, so the holdings of one token fall and those of
another rise (`cancellation_moves_settled_tokens`).
-/

namespace Morgan

namespace Exchange

open Rust Bincode

/-- The token a trade's escrow is in. -/
def TradeOrderInfo.escrowToken (trade : TradeOrderInfo) : Token :=
  Exchange.escrowToken trade.direction trade.pair

/-- What an exchange state holds of a token, in unbounded naturals. -/
def holding (state : ExchangeState) (t : Token) : Nat :=
  match state with
  | .account info => (info.tokens.get t).toNat
  | .trade trade =>
    (if trade.escrowToken = t then trade.tokens.toNat else 0) +
      (if trade.settledToken = t then trade.tokensSettled.toNat else 0)
  | _ => 0

/-- What the keyed accounts whose data decode hold of a token. -/
def totalHeld (keyedAccounts : List KeyedAccount) (t : Token) : Nat :=
  (keyedAccounts.map fun k =>
    ((Bincode.deserialize ExchangeState.deserialize k.account.data).map (holding · t)).getD 0).sum

/-! ## Signer flags -/

/-- The keyed accounts with every signer flag cleared. -/
def unsigned (keyedAccounts : List KeyedAccount) : List KeyedAccount :=
  keyedAccounts.map fun k => { k with isSigner := false }

@[simp] theorem length_unsigned (keyedAccounts : List KeyedAccount) :
    (unsigned keyedAccounts).length = keyedAccounts.length := by
  simp [unsigned]

@[simp] theorem dataAt_unsigned (keyedAccounts : List KeyedAccount) (i : Nat) :
    dataAt (unsigned keyedAccounts) i = dataAt keyedAccounts i := by
  simp only [dataAt, unsigned, List.getElem?_map, Option.map_map]
  rfl

@[simp] theorem keyAt_unsigned (keyedAccounts : List KeyedAccount) (i : Nat) :
    keyAt (unsigned keyedAccounts) i = keyAt keyedAccounts i := by
  simp only [keyAt, unsigned, List.getElem?_map, Option.map_map]
  rfl

theorem writeState_unsigned (keyedAccounts : List KeyedAccount) (i : Nat) (state : ExchangeState) :
    writeState (unsigned keyedAccounts) i state =
      unsigned <$> writeState keyedAccounts i state := by
  simp only [writeState, updateAccount, unsigned, List.getElem?_map, Option.bind_eq_bind]
  cases keyedAccounts[i]? with
  | none => rfl
  | some k =>
    simp only [Option.map_some, Option.bind_some, Option.pure_def, Outcome.ofOption_some,
      Outcome.map_ok]
    simp [unsigned, List.map_set]

theorem map_bind {α β γ : Type} (o : Outcome InstructionError α)
    (g : α → Outcome InstructionError β) (f : β → γ) :
    f <$> (o >>= g) = o >>= fun a => f <$> g a := by
  cases o <;> rfl

theorem bind_map_left {α β γ : Type} (o : Outcome InstructionError α) (f : α → β)
    (g : β → Outcome InstructionError γ) : (f <$> o) >>= g = o >>= fun a => g (f a) := by
  cases o <;> rfl

theorem bind_congr {α β : Type} (o : Outcome InstructionError α)
    {g h : α → Outcome InstructionError β} (hgh : ∀ a, g a = h a) : o >>= g = o >>= h :=
  congrArg (o >>= ·) (funext hgh)

theorem doAccountRequest_unsigned (keyedAccounts : List KeyedAccount) :
    doAccountRequest (unsigned keyedAccounts) = unsigned <$> doAccountRequest keyedAccounts := by
  unfold doAccountRequest
  simp only [length_unsigned, dataAt_unsigned, keyAt_unsigned, writeState_unsigned]
  split_ifs
  · rfl
  · simp only [map_bind]

theorem doTransferRequest_unsigned (keyedAccounts : List KeyedAccount) (token : Token)
    (tokens : UInt64) :
    doTransferRequest (unsigned keyedAccounts) token tokens =
      unsigned <$> doTransferRequest keyedAccounts token tokens := by
  unfold doTransferRequest
  simp only [length_unsigned, dataAt_unsigned, keyAt_unsigned, writeState_unsigned]
  split_ifs
  · rfl
  simp only [map_bind]
  refine bind_congr _ fun _ => bind_congr _ fun _ => bind_congr _ fun _ => bind_congr _ fun _ => ?_
  split_ifs
  · rfl
  simp only [map_bind]
  refine bind_congr _ fun _ => bind_congr _ fun state => ?_
  cases state <;> simp only [apply_ite (unsigned <$> ·), Outcome.map_err, bind_map_left,
    writeState_unsigned, map_bind]

theorem doTradeRequest_unsigned (keyedAccounts : List KeyedAccount) (info : TradeRequestInfo) :
    doTradeRequest (unsigned keyedAccounts) info =
      unsigned <$> doTradeRequest keyedAccounts info := by
  unfold doTradeRequest
  simp only [length_unsigned, dataAt_unsigned, keyAt_unsigned, writeState_unsigned]
  split_ifs
  · rfl
  simp only [map_bind]
  refine bind_congr _ fun _ => bind_congr _ fun _ => bind_congr _ fun _ =>
    bind_congr _ fun _ => bind_congr _ fun _ => ?_
  split_ifs
  · rfl
  · rfl
  split <;> simp only [Outcome.map_panic, bind_map_left, writeState_unsigned, map_bind]

theorem doTradeCancellation_unsigned (keyedAccounts : List KeyedAccount) :
    doTradeCancellation (unsigned keyedAccounts) =
      unsigned <$> doTradeCancellation keyedAccounts := by
  unfold doTradeCancellation
  simp only [length_unsigned, dataAt_unsigned, keyAt_unsigned, writeState_unsigned]
  split_ifs
  · rfl
  simp only [map_bind]
  refine bind_congr _ fun _ => bind_congr _ fun _ => bind_congr _ fun _ => ?_
  split_ifs <;> rfl

theorem doSwapRequest_unsigned (keyedAccounts : List KeyedAccount) :
    doSwapRequest (unsigned keyedAccounts) = unsigned <$> doSwapRequest keyedAccounts := by
  unfold doSwapRequest
  simp only [length_unsigned, dataAt_unsigned, writeState_unsigned]
  split_ifs
  · rfl
  simp only [map_bind]
  refine bind_congr _ fun _ => bind_congr _ fun _ => bind_congr _ fun _ =>
    bind_congr _ fun _ => bind_congr _ fun _ => bind_congr _ fun _ => ?_
  split_ifs <;> simp only [Outcome.map_err, map_bind, bind_map_left, writeState_unsigned]

/-- The exchange program never reads a signer flag: clearing every flag of the keyed accounts
changes nothing else in its result. -/
theorem processInstruction_unsigned (programId : Pubkey) (keyedAccounts : List KeyedAccount)
    (data : List UInt8) (tickHeight : UInt64) :
    processInstruction programId (unsigned keyedAccounts) data tickHeight =
      unsigned <$> processInstruction programId keyedAccounts data tickHeight := by
  unfold processInstruction
  split
  · rfl
  · exact doAccountRequest_unsigned keyedAccounts
  · exact doTransferRequest_unsigned keyedAccounts _ _
  · exact doTradeRequest_unsigned keyedAccounts _
  · exact doTradeCancellation_unsigned keyedAccounts
  · exact doSwapRequest_unsigned keyedAccounts

/-! ## Two accepted instructions -/

/-- A keyed account of the exchange program whose data is the encoding of a state. -/
def exchangeAccount (key : Pubkey) (state : ExchangeState) : KeyedAccount :=
  ⟨key, false, ⟨1, 0, state.serialize, EXCHANGE_PROGRAM_ID, false⟩⟩

/-- The key of an owner, as a keyed account that has not signed. -/
def ownerUnsigned : KeyedAccount :=
  ⟨⟨Vector.replicate 32 1⟩, false, ⟨1, 0, [], SYSTEM_PROGRAM_ID, false⟩⟩

/-- The owner's key as the first keyed account, unsigned, is all a transfer out of the owner's
token account asks for: 10 of token A go from it to another owner's account. -/
theorem transfer_without_owner_signature :
    processInstruction EXCHANGE_PROGRAM_ID
        [ownerUnsigned,
         exchangeAccount ⟨Vector.replicate 32 2⟩ (.account ⟨⟨Vector.replicate 32 4⟩, Tokens.zero⟩),
         exchangeAccount ⟨Vector.replicate 32 3⟩
           (.account ⟨⟨Vector.replicate 32 1⟩, ⟨100, 0, 0, 0⟩⟩)]
        (ExchangeInstruction.serialize (.transferRequest .A 10)) 0 =
      .ok [ownerUnsigned,
           exchangeAccount ⟨Vector.replicate 32 2⟩
             (.account ⟨⟨Vector.replicate 32 4⟩, ⟨10, 0, 0, 0⟩⟩),
           exchangeAccount ⟨Vector.replicate 32 3⟩
             (.account ⟨⟨Vector.replicate 32 1⟩, ⟨90, 0, 0, 0⟩⟩)] := by
  decide

/-- The owner, signed, and its `To` trade on the pair AB: 5 of token A in escrow, 3 of token B
settled. -/
def cancelBefore : List KeyedAccount :=
  [{ ownerUnsigned with isSigner := true },
   exchangeAccount ⟨Vector.replicate 32 5⟩
     (.trade ⟨⟨Vector.replicate 32 1⟩, .To, .AB, 5, 1000, 3⟩)]

/-- The trade cancelled: a token account with 8 of token A. -/
def cancelAfter : List KeyedAccount :=
  [{ ownerUnsigned with isSigner := true },
   exchangeAccount ⟨Vector.replicate 32 5⟩
     (.account ⟨⟨Vector.replicate 32 1⟩, ⟨8, 0, 0, 0⟩⟩)]

/-- Cancelling the trade mints nothing, yet the holdings of token B fall from 3 to 0 and those of
token A rise from 5 to 8: the settled tokens come back in the escrowed token. -/
theorem cancellation_moves_settled_tokens :
    processInstruction EXCHANGE_PROGRAM_ID cancelBefore
        (ExchangeInstruction.serialize .tradeCancellation) 0 = .ok cancelAfter ∧
      totalHeld cancelBefore .A = 5 ∧ totalHeld cancelAfter .A = 8 ∧
      totalHeld cancelBefore .B = 3 ∧ totalHeld cancelAfter .B = 0 := by
  decide

/-! ## A swap below the `To` trade's price -/

/-- A `To` trade selling 10 of token A at 2 of token B each (price 2000), a `From` trade buying
token A with 3 of token B at 0.5 each (price 500), and a profit account. -/
def swapBefore : List KeyedAccount :=
  [ownerUnsigned,
   exchangeAccount ⟨Vector.replicate 32 6⟩ (.trade ⟨⟨Vector.replicate 32 1⟩, .To, .AB, 10, 2000, 0⟩),
   exchangeAccount ⟨Vector.replicate 32 7⟩
     (.trade ⟨⟨Vector.replicate 32 2⟩, .From, .AB, 3, 500, 0⟩),
   exchangeAccount ⟨Vector.replicate 32 8⟩ (.account ⟨⟨Vector.replicate 32 3⟩, Tokens.zero⟩)]

/-- After the swap: the `To` trade has given up 6 of token A and settled 3 of token B, the `From`
trade is spent and holds the 6 of token A, and no profit is taken. -/
def swapAfter : List KeyedAccount :=
  [ownerUnsigned,
   exchangeAccount ⟨Vector.replicate 32 6⟩ (.trade ⟨⟨Vector.replicate 32 1⟩, .To, .AB, 4, 2000, 3⟩),
   exchangeAccount ⟨Vector.replicate 32 7⟩ (.account ⟨⟨Vector.replicate 32 2⟩, ⟨6, 0, 0, 0⟩⟩),
   exchangeAccount ⟨Vector.replicate 32 8⟩ (.account ⟨⟨Vector.replicate 32 3⟩, Tokens.zero⟩)]

/-- The prices do not cross, yet the swap goes through: the `To` trade gives up 6 of token A for 3
of token B, a quarter of the 12 its price asks, far past one token of rounding. -/
theorem swap_fills_to_trade_below_its_price :
    processInstruction EXCHANGE_PROGRAM_ID swapBefore
        (ExchangeInstruction.serialize .swapRequest) 0 = .ok swapAfter ∧
      (3 + 1) * SCALER.toNat ≤ 6 * 2000 := by
  decide

end Exchange

end Morgan
