import Morgan.Interface.Basic
import Morgan.Interface.ShortVec

/-!
# Transactions and their wire format

`message.rs`, `instruction.rs` and `transaction.rs`: a transaction is a list of signatures and a
message; the message holds a header counting the signed and the credit-only keys, the account
keys, a recent blockhash and instructions that name accounts and a program by their index in the
keys.  Bincode writes a struct as its fields in order, the keys, hashes and signatures as their raw
bytes, and every vector with a `ShortU16` length prefix.

A transaction serializes exactly when each of its vectors has at most `u16::MAX` elements
(`Transaction.ShortVecsFit`), and then decodes back from its bytes (`transaction_wire_roundTrip`).

Only the header's first count decides which keys are signers; nothing in the wire format ties it to
the number of signatures.
-/

namespace Morgan

open Bincode ShortVec

/-- `MessageHeader`. -/
structure MessageHeader where
  numRequiredSignatures : UInt8
  numCreditOnlySignedAccounts : UInt8
  numCreditOnlyUnsignedAccounts : UInt8
  deriving DecidableEq, Repr

/-- `CompiledInstruction`: indices into the message's account keys, and the instruction data. -/
structure CompiledInstruction where
  programIdsIndex : UInt8
  accounts : List UInt8
  data : List UInt8
  deriving DecidableEq, Repr

/-- `Message`. -/
structure Message where
  header : MessageHeader
  accountKeys : List Pubkey
  recentBlockhash : Hash
  instructions : List CompiledInstruction
  deriving DecidableEq, Repr

/-- `Transaction`. -/
structure Transaction where
  signatures : List Signature
  message : Message
  deriving DecidableEq, Repr

/-! ## Decoding -/

/-- A `Pubkey` is its 32 bytes. -/
def Pubkey.deserialize : Decoder Pubkey := Pubkey.mk <$> array 32

/-- A `Hash` is its 32 bytes. -/
def Hash.deserialize : Decoder Hash := Hash.mk <$> array 32

/-- A `Signature` is its 64 bytes. -/
def Signature.deserialize : Decoder Signature := Signature.mk <$> array 64

def MessageHeader.deserialize : Decoder MessageHeader := do
  let numRequiredSignatures ← byte
  let numCreditOnlySignedAccounts ← byte
  let numCreditOnlyUnsignedAccounts ← byte
  pure ⟨numRequiredSignatures, numCreditOnlySignedAccounts, numCreditOnlyUnsignedAccounts⟩

def CompiledInstruction.deserialize : Decoder CompiledInstruction := do
  let programIdsIndex ← byte
  let accounts ← deserializeShortVec byte
  let data ← deserializeShortVec byte
  pure ⟨programIdsIndex, accounts, data⟩

def Message.deserialize : Decoder Message := do
  let header ← MessageHeader.deserialize
  let accountKeys ← deserializeShortVec Pubkey.deserialize
  let recentBlockhash ← Hash.deserialize
  let instructions ← deserializeShortVec CompiledInstruction.deserialize
  pure ⟨header, accountKeys, recentBlockhash, instructions⟩

def Transaction.deserialize : Decoder Transaction := do
  let signatures ← deserializeShortVec Signature.deserialize
  let message ← Message.deserialize
  pure ⟨signatures, message⟩

/-! ## Encoding -/

def MessageHeader.serialize (header : MessageHeader) : List UInt8 :=
  [header.numRequiredSignatures, header.numCreditOnlySignedAccounts,
    header.numCreditOnlyUnsignedAccounts]

/-- `none` is a vector longer than `u16::MAX`. -/
def CompiledInstruction.serialize (instruction : CompiledInstruction) : Option (List UInt8) := do
  let accounts ← serializeShortVec (fun b => some [b]) instruction.accounts
  let data ← serializeShortVec (fun b => some [b]) instruction.data
  pure (instruction.programIdsIndex :: accounts ++ data)

def Message.serialize (message : Message) : Option (List UInt8) := do
  let accountKeys ← serializeShortVec (fun key => some key.bytes.toList) message.accountKeys
  let instructions ← serializeShortVec CompiledInstruction.serialize message.instructions
  pure (message.header.serialize ++ accountKeys ++ message.recentBlockhash.bytes.toList ++
    instructions)

def Transaction.serialize (tx : Transaction) : Option (List UInt8) := do
  let signatures ← serializeShortVec (fun signature => some signature.bytes.toList) tx.signatures
  let message ← tx.message.serialize
  pure (signatures ++ message)

/-- `message_data`: the bytes that are signed; `none` is the panic of its `unwrap`. -/
def Transaction.messageData (tx : Transaction) : Option (List UInt8) := tx.message.serialize

/-! ## Round trip -/

theorem readsBack_pubkey : ReadsBack Pubkey.deserialize fun key => some key.bytes.toList :=
  (ReadsBack.array 32).map Pubkey.mk Pubkey.bytes fun _ => rfl

theorem readsBack_hash : ReadsBack Hash.deserialize fun hash => some hash.bytes.toList :=
  (ReadsBack.array 32).map Hash.mk Hash.bytes fun _ => rfl

theorem readsBack_signature :
    ReadsBack Signature.deserialize fun signature => some signature.bytes.toList :=
  (ReadsBack.array 64).map Signature.mk Signature.bytes fun _ => rfl

theorem readsBack_messageHeader :
    ReadsBack MessageHeader.deserialize fun header => some header.serialize := by
  intro header bytes h rest
  cases h
  rfl

theorem readsBack_compiledInstruction :
    ReadsBack CompiledInstruction.deserialize CompiledInstruction.serialize := by
  intro instruction bytes h rest
  simp only [CompiledInstruction.serialize, Option.bind_eq_bind, Option.bind_eq_some_iff,
    Option.pure_def, Option.some.injEq] at h
  obtain ⟨accounts, haccounts, data, hdata, rfl⟩ := h
  have hbytes := readsBack_shortVec ReadsBack.byte
  simp only [List.cons_append, List.append_assoc]
  rw [CompiledInstruction.deserialize, ← List.singleton_append, ReadsBack.byte.run_bind rfl,
    hbytes.run_bind haccounts, hbytes.run_bind hdata]
  rfl

theorem readsBack_message : ReadsBack Message.deserialize Message.serialize := by
  intro message bytes h rest
  simp only [Message.serialize, Option.bind_eq_bind, Option.bind_eq_some_iff, Option.pure_def,
    Option.some.injEq] at h
  obtain ⟨accountKeys, haccountKeys, instructions, hinstructions, rfl⟩ := h
  simp only [List.append_assoc]
  rw [Message.deserialize, readsBack_messageHeader.run_bind rfl,
    (readsBack_shortVec readsBack_pubkey).run_bind haccountKeys, readsBack_hash.run_bind rfl,
    (readsBack_shortVec readsBack_compiledInstruction).run_bind hinstructions]
  rfl

/-- A transaction that serializes decodes back, whatever follows it in the buffer. -/
theorem readsBack_transaction : ReadsBack Transaction.deserialize Transaction.serialize := by
  intro tx bytes h rest
  simp only [Transaction.serialize, Option.bind_eq_bind, Option.bind_eq_some_iff, Option.pure_def,
    Option.some.injEq] at h
  obtain ⟨signatures, hsignatures, message, hmessage, rfl⟩ := h
  rw [Transaction.deserialize, List.append_assoc,
    (readsBack_shortVec readsBack_signature).run_bind hsignatures,
    readsBack_message.run_bind hmessage]
  rfl

/-! ## Which transactions serialize -/

/-- Every vector of the transaction fits a `ShortU16` length: at most `u16::MAX` elements. -/
def Transaction.ShortVecsFit (tx : Transaction) : Prop :=
  tx.signatures.length ≤ 65535 ∧ tx.message.accountKeys.length ≤ 65535 ∧
    tx.message.instructions.length ≤ 65535 ∧
    ∀ ix ∈ tx.message.instructions, ix.accounts.length ≤ 65535 ∧ ix.data.length ≤ 65535

instance : DecidablePred Transaction.ShortVecsFit := fun _ =>
  inferInstanceAs (Decidable (_ ∧ _ ∧ _ ∧ _))

theorem CompiledInstruction.serialize_eq_none_iff (ix : CompiledInstruction) :
    ix.serialize = none ↔ 65535 < ix.accounts.length ∨ 65535 < ix.data.length := by
  have haccounts := serializeShortVec_total_eq_none_iff (fun b => [b]) ix.accounts
  have hdata := serializeShortVec_total_eq_none_iff (fun b => [b]) ix.data
  unfold CompiledInstruction.serialize
  cases ha : serializeShortVec (fun b => some [b]) ix.accounts <;>
    cases hd : serializeShortVec (fun b => some [b]) ix.data <;> simp_all

theorem Message.serialize_eq_none_iff (message : Message) :
    message.serialize = none ↔ 65535 < message.accountKeys.length ∨
      65535 < message.instructions.length ∨ ∃ ix ∈ message.instructions, ix.serialize = none := by
  have hkeys := serializeShortVec_total_eq_none_iff (fun key : Pubkey => key.bytes.toList)
    message.accountKeys
  have hinstructions :=
    @serializeShortVec_eq_none_iff _ CompiledInstruction.serialize message.instructions
  unfold Message.serialize
  cases hk : serializeShortVec (fun key => some key.bytes.toList) message.accountKeys <;>
    cases hi : serializeShortVec CompiledInstruction.serialize message.instructions <;> simp_all

theorem Transaction.serialize_eq_none_iff (tx : Transaction) :
    tx.serialize = none ↔ ¬ tx.ShortVecsFit := by
  have hsignatures := serializeShortVec_total_eq_none_iff
    (fun signature : Signature => signature.bytes.toList) tx.signatures
  have hsplit : tx.serialize = none ↔
      65535 < tx.signatures.length ∨ tx.message.serialize = none := by
    unfold Transaction.serialize
    cases hs : serializeShortVec (fun signature => some signature.bytes.toList) tx.signatures <;>
      cases hm : tx.message.serialize <;> simp_all
  rw [hsplit, Message.serialize_eq_none_iff, ShortVecsFit]
  simp only [CompiledInstruction.serialize_eq_none_iff, not_and_or, not_le, not_forall,
    exists_prop]

/-- The wire round trip: a transaction serializes exactly when its vectors fit their `ShortU16`
lengths, and decoding its bytes then gives it back. -/
theorem transaction_wire_roundTrip (tx : Transaction) :
    (tx.serialize = none ↔ ¬ tx.ShortVecsFit) ∧
      (tx.serialize.bind (Bincode.deserialize Transaction.deserialize) = some tx ↔
        tx.ShortVecsFit) := by
  refine ⟨tx.serialize_eq_none_iff, ?_⟩
  cases h : tx.serialize with
  | none =>
    have hfit := (tx.serialize_eq_none_iff).1 h
    simp [hfit]
  | some bytes =>
    have hfit : tx.ShortVecsFit := by
      by_contra hnot
      rw [← tx.serialize_eq_none_iff, h] at hnot
      cases hnot
    have hread := readsBack_transaction tx bytes h []
    rw [List.append_nil] at hread
    simp [Bincode.deserialize, hread, hfit]

/-! ## Keys and references -/

namespace Transaction

/-- `verify_refs`: every program and account index names one of the account keys. -/
def verifyRefs (tx : Transaction) : Bool :=
  tx.message.instructions.all fun instruction =>
    instruction.programIdsIndex.toNat < tx.message.accountKeys.length &&
      instruction.accounts.all fun accountIndex =>
        accountIndex.toNat < tx.message.accountKeys.length

/-- `key_index`. -/
def keyIndex (tx : Transaction) (instructionIndex accountsIndex : Nat) : Option Nat := do
  let instruction ← tx.message.instructions[instructionIndex]?
  let accountKeysIndex ← instruction.accounts[accountsIndex]?
  pure accountKeysIndex.toNat

/-- `signer_key`: a key counts as signed when its index is below the number of signatures. -/
def signerKey (tx : Transaction) (instructionIndex accountsIndex : Nat) : Option Pubkey := do
  let signatureIndex ← tx.keyIndex instructionIndex accountsIndex
  if signatureIndex ≥ tx.signatures.length then none
  else tx.message.accountKeys[signatureIndex]?

end Transaction

end Morgan
