import Mathlib
import Morgan.Runtime.SystemProgram

/-!
# The budget program

`budget_expr.rs`, `budget_state.rs` and `budget_processor.rs`: a contract account holds a payment
plan, a `BudgetExpr` whose leaves pay an amount to a key and whose inner nodes wait for conditions:
a signature of a key, or a timestamp at or after a date signed by a key.  `InitializeAccount`
stores the plan; every `ApplySignature` or `ApplyTimestamp` whose first keyed account signed is a
witness, which rewrites the plan one level (`apply_witness`), and a plan that becomes a payment is
paid out of the contract at once.

Dates are `DateTime<Utc>`, any linear order here.  Bincode writes them through chrono's serde
(RFC 3339 strings): the model takes the program's codec as a parameter (`Codec`), a decoder of
instructions and of states and a `serialize_into` that reads back what it writes.  Arithmetic is
that of the release build: `u64` wraps.
-/

namespace Morgan

namespace Budget

open Rust

variable {τ : Type}

/-- `Witness`. -/
inductive Witness (τ : Type) where
  | timestamp (dt : τ)
  | signature
  deriving DecidableEq, Repr

/-- `Payment`: `payee` is the field `to`. -/
structure Payment where
  difs : UInt64
  payee : Pubkey
  deriving DecidableEq, Repr

/-- `Condition`. -/
inductive Condition (τ : Type) where
  | timestamp (dt : τ) (pubkey : Pubkey)
  | signature (pubkey : Pubkey)
  deriving DecidableEq, Repr

/-- `BudgetExpr`: `Or` holds its two branches, each a condition and a plan. -/
inductive BudgetExpr (τ : Type) where
  | pay (payment : Payment)
  | after (cond : Condition τ) (sub : BudgetExpr τ)
  | or (cond0 : Condition τ) (sub0 : BudgetExpr τ) (cond1 : Condition τ) (sub1 : BudgetExpr τ)
  | and (cond0 cond1 : Condition τ) (sub : BudgetExpr τ)
  deriving DecidableEq, Repr

/-- `BudgetState`. -/
structure BudgetState (τ : Type) where
  initialized : Bool
  pendingBudget : Option (BudgetExpr τ)
  deriving DecidableEq, Repr

/-- `BudgetError`. -/
inductive BudgetError where
  | destinationMissing
  deriving DecidableEq, Repr

/-- `BudgetInstruction`. -/
inductive BudgetInstruction (τ : Type) where
  | initializeAccount (expr : BudgetExpr τ)
  | applyTimestamp (dt : τ)
  | applySignature
  deriving DecidableEq, Repr

/-- Bincode for the program's types: a decoder of instructions and of states, and
`serialize_into` a buffer, `none` when the state does not fit; a state written reads back. -/
structure Codec (τ : Type) where
  deserializeInstruction : List UInt8 → Option (BudgetInstruction τ)
  deserializeState : List UInt8 → Option (BudgetState τ)
  serializeInto : BudgetState τ → List UInt8 → Option (List UInt8)
  readsBack : ∀ state data data', serializeInto state data = some data' →
    deserializeState data' = some state

variable [LinearOrder τ]

/-- `Condition::is_satisfied`: the witness is of the condition's kind, from its key, and a
timestamp is at or after its date. -/
def Condition.isSatisfied : Condition τ → Witness τ → Pubkey → Bool
  | .signature pubkey, .signature, signer => decide (pubkey = signer)
  | .timestamp dt pubkey, .timestamp lastTime, signer => decide (pubkey = signer) && decide (dt ≤ lastTime)
  | _, _, _ => false

namespace BudgetExpr

/-- `final_payment`. -/
def finalPayment : BudgetExpr τ → Option Payment
  | .pay payment => some payment
  | _ => none

/-- `verify`: every leaf pays the amount the contract holds. -/
def verify : BudgetExpr τ → UInt64 → Bool
  | .pay payment, spendable => payment.difs == spendable
  | .after _ sub, spendable => sub.verify spendable
  | .and _ _ sub, spendable => sub.verify spendable
  | .or _ sub0 _ sub1, spendable => sub0.verify spendable && sub1.verify spendable

/-- `apply_witness`: a satisfied `After` gives its plan, `Or` the plan of its first satisfied
branch, and `And` waits for its other condition; otherwise the plan is unchanged. -/
def applyWitness (e : BudgetExpr τ) (witness : Witness τ) (signer : Pubkey) : BudgetExpr τ :=
  match e with
  | .after cond sub => if cond.isSatisfied witness signer then sub else e
  | .or cond0 sub0 cond1 sub1 =>
    if cond0.isSatisfied witness signer then sub0
    else if cond1.isSatisfied witness signer then sub1
    else e
  | .and cond0 cond1 sub =>
    if cond0.isSatisfied witness signer then .after cond1 sub
    else if cond1.isSatisfied witness signer then .after cond0 sub
    else e
  | .pay _ => e

end BudgetExpr

/-- `is_pending`. -/
def BudgetState.isPending (state : BudgetState τ) : Bool := state.pendingBudget.isSome

/-! ## The processor -/

/-- Pay an amount out of the contract, `keyed_accounts[1]`, into the keyed account at an index. -/
def payOut (keyedAccounts : List KeyedAccount) (dest : Nat) (difs : UInt64) :
    Outcome BudgetError (List KeyedAccount) := do
  let keyedAccounts ← Outcome.ofOption
    (updateAccount keyedAccounts 1 fun a => { a with difs := a.difs - difs })
  Outcome.ofOption (updateAccount keyedAccounts dest fun a => { a with difs := a.difs + difs })

/-- `apply_signature`: the signer's witness; a final payment goes to the signer when the signer is
the payee, and otherwise to `keyed_accounts[2]`, which must be the payee. -/
def applySignature (state : BudgetState τ) (keyedAccounts : List KeyedAccount) :
    Outcome BudgetError (BudgetState τ × List KeyedAccount) :=
  match state.pendingBudget with
  | none => .ok (state, keyedAccounts)
  | some expr => do
    let k0 ← Outcome.ofOption keyedAccounts[0]?
    let key ← Outcome.ofOption k0.signerKey
    let expr := expr.applyWitness .signature key
    match expr.finalPayment with
    | none => .ok ({ state with pendingBudget := some expr }, keyedAccounts)
    | some payment =>
      if k0.signerKey = some payment.payee then do
        let keyedAccounts ← payOut keyedAccounts 0 payment.difs
        .ok ({ state with pendingBudget := none }, keyedAccounts)
      else do
        let k2 ← Outcome.ofOption keyedAccounts[2]?
        if payment.payee ≠ k2.unsignedKey then .err .destinationMissing
        else do
          let keyedAccounts ← payOut keyedAccounts 2 payment.difs
          .ok ({ state with pendingBudget := none }, keyedAccounts)

/-- `apply_timestamp`: the signer's timestamp; a final payment goes to `keyed_accounts[2]`, which
must be the payee. -/
def applyTimestamp (state : BudgetState τ) (keyedAccounts : List KeyedAccount) (dt : τ) :
    Outcome BudgetError (BudgetState τ × List KeyedAccount) :=
  match state.pendingBudget with
  | none => .ok (state, keyedAccounts)
  | some expr => do
    let k0 ← Outcome.ofOption keyedAccounts[0]?
    let key ← Outcome.ofOption k0.signerKey
    let expr := expr.applyWitness (.timestamp dt) key
    match expr.finalPayment with
    | none => .ok ({ state with pendingBudget := some expr }, keyedAccounts)
    | some payment => do
      let k2 ← Outcome.ofOption keyedAccounts[2]?
      if payment.payee ≠ k2.unsignedKey then .err .destinationMissing
      else do
        let keyedAccounts ← payOut keyedAccounts 2 payment.difs
        .ok ({ state with pendingBudget := none }, keyedAccounts)

/-- `BudgetState::serialize` into the data of the keyed account at an index. -/
def serializeAt (codec : Codec τ) (keyedAccounts : List KeyedAccount) (i : Nat)
    (state : BudgetState τ) : Outcome InstructionError (List KeyedAccount) := do
  let k ← Outcome.ofOption keyedAccounts[i]?
  match codec.serializeInto state k.account.data with
  | some data => .ok (keyedAccounts.set i { k with account := { k.account with data } })
  | none => .err .accountDataTooSmall

/-- The body shared by `ApplyTimestamp` and `ApplySignature`: the contract is `keyed_accounts[1]`,
a settled contract is left alone, and the first keyed account must have signed. -/
def applyWitnessInstruction (codec : Codec τ) (keyedAccounts : List KeyedAccount)
    (apply : BudgetState τ → List KeyedAccount →
      Outcome BudgetError (BudgetState τ × List KeyedAccount)) :
    Outcome InstructionError (List KeyedAccount) := do
  let k1 ← Outcome.ofOption keyedAccounts[1]?
  let state ← match codec.deserializeState k1.account.data with
    | some state => .ok state
    | none => .err .invalidAccountData
  if !state.isPending then .ok keyedAccounts
  else if !state.initialized then .err .uninitializedAccount
  else do
    let k0 ← Outcome.ofOption keyedAccounts[0]?
    if k0.signerKey.isNone then .err .missingRequiredSignature
    else do
      -- `BudgetError::DestinationMissing` is error 0
      let (state, keyedAccounts) ← (apply state keyedAccounts).mapErr fun _ => .customError 0
      serializeAt codec keyedAccounts 1 state

/-- `process_instruction` of the budget program.  A plan that is already a payment is paid into
`keyed_accounts[0]` at once, and the contract's difs are set to zero. -/
def processInstruction (codec : Codec τ) : ProcessInstruction := fun _ keyedAccounts data _ =>
  match codec.deserializeInstruction data with
  | none => .err .invalidInstructionData
  | some (.initializeAccount expr) =>
    match expr.finalPayment with
    | some payment => do
      let keyedAccounts ← Outcome.ofOption
        (updateAccount keyedAccounts 1 fun a => { a with difs := 0 })
      Outcome.ofOption
        (updateAccount keyedAccounts 0 fun a => { a with difs := a.difs + payment.difs })
    | none => do
      let k0 ← Outcome.ofOption keyedAccounts[0]?
      if (codec.deserializeState k0.account.data).map (·.initialized) = some true then
        .err .accountAlreadyInitialized
      else serializeAt codec keyedAccounts 0 ⟨true, some expr⟩
  | some (.applyTimestamp dt) =>
    applyWitnessInstruction codec keyedAccounts fun state ks => applyTimestamp state ks dt
  | some .applySignature => applyWitnessInstruction codec keyedAccounts applySignature

end Budget

end Morgan
