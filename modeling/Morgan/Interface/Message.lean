import Mathlib
import Morgan.Interface.Transaction
import Morgan.Lib.EraseDups

/-!
# Compiling instructions into a message

`message.rs`: `Message::new_with_payer` gathers the keys that instructions name, with the payer
first, sorts them by two flags (signers first, then debitable accounts first, a stable sort), keeps
the first `AccountMeta` of each key (`unique_by`) and splits the keys into signed and unsigned,
counting the credit-only ones of each part.  Instructions are then compiled to indices into the
keys.  `get_account_keys_by_lock_type` reads the split back from the header.

The keys are distinct and the payer comes first (`nodup_accountKeys`, `accountKeys_head`).  The
flags a key ends with are those of its first meta after the sort, so a key that one instruction
marks a credit-only signer and another a debitable account is locked credit-only
(`debitable_key_locked_credit_only`).
-/

namespace Morgan

/-- `AccountMeta`. -/
structure AccountMeta where
  pubkey : Pubkey
  isSigner : Bool
  isDebitable : Bool
  deriving DecidableEq, Repr

/-- `Instruction`: the program is named by its key. -/
structure Instruction where
  programIdsIndex : Pubkey
  accounts : List AccountMeta
  data : List UInt8
  deriving DecidableEq, Repr

/-- `InstructionKeys`. -/
structure InstructionKeys where
  signedKeys : List Pubkey
  unsignedKeys : List Pubkey
  numCreditOnlySignedAccounts : UInt8
  numCreditOnlyUnsignedAccounts : UInt8
  deriving DecidableEq, Repr

namespace Message

/-- `position`: the index of a key, cast to `u8`; the `unwrap` panics when the key is absent. -/
def position (keys : List Pubkey) (key : Pubkey) : Option UInt8 :=
  (keys.findIdx? (· = key)).map UInt8.ofNat

/-- `compile_instruction`. -/
def compileInstruction (ix : Instruction) (keys : List Pubkey) : Option CompiledInstruction := do
  let accounts ← ix.accounts.mapM fun m => position keys m.pubkey
  let programIdsIndex ← position keys ix.programIdsIndex
  pure ⟨programIdsIndex, accounts, ix.data⟩

/-- `get_program_ids`: the programs of the instructions, each once, in order. -/
def getProgramIds (instructions : List Instruction) : List Pubkey :=
  (instructions.map (·.programIdsIndex)).eraseDups

/-- The comparator of the sort in `get_keys`: signers first, then debitable accounts first. -/
def metaOrder (x y : AccountMeta) : Ordering :=
  (compare y.isSigner x.isSigner).then (compare y.isDebitable x.isDebitable)

/-- One iteration of the loop of `get_keys`. -/
def addKey (keys : InstructionKeys) (m : AccountMeta) : InstructionKeys :=
  if m.isSigner then
    { keys with
      signedKeys := keys.signedKeys ++ [m.pubkey]
      numCreditOnlySignedAccounts :=
        if m.isDebitable then keys.numCreditOnlySignedAccounts
        else keys.numCreditOnlySignedAccounts + 1 }
  else
    { keys with
      unsignedKeys := keys.unsignedKeys ++ [m.pubkey]
      numCreditOnlyUnsignedAccounts :=
        if m.isDebitable then keys.numCreditOnlyUnsignedAccounts
        else keys.numCreditOnlyUnsignedAccounts + 1 }

/-- The metas `get_keys` sorts and reads: every account of every instruction and every program as
a credit-only unsigned account, signers first and debitable first, with the payer's in front. -/
def keysAndSigned (instructions : List Instruction) (payer : Option Pubkey) : List AccountMeta :=
  let programs := (getProgramIds instructions).map fun p => AccountMeta.mk p false false
  let sorted := (instructions.flatMap (·.accounts) ++ programs).mergeSort
    fun x y => metaOrder x y != .gt
  match payer with
  | some p => ⟨p, true, true⟩ :: sorted
  | none => sorted

/-- `get_keys`. -/
def getKeys (instructions : List Instruction) (payer : Option Pubkey) : InstructionKeys :=
  ((keysAndSigned instructions payer).uniqueBy (·.pubkey)).foldl addKey ⟨[], [], 0, 0⟩

/-- `Message::new_with_payer`, with the default blockhash; `none` is a panic of `position`. -/
def newWithPayer (instructions : List Instruction) (payer : Option Pubkey) : Option Message := do
  let keys := getKeys instructions payer
  let accountKeys := keys.signedKeys ++ keys.unsignedKeys
  let compiled ← instructions.mapM (compileInstruction · accountKeys)
  pure ⟨⟨UInt8.ofNat keys.signedKeys.length, keys.numCreditOnlySignedAccounts,
    keys.numCreditOnlyUnsignedAccounts⟩, accountKeys, default, compiled⟩

/-- `is_credit_debit`: among the signed keys before the credit-only ones, or among the unsigned keys
before the credit-only ones; a subtraction below zero panics. -/
def isCreditDebit (m : Message) (i : Nat) : Option Bool :=
  let h := m.header
  if h.numCreditOnlySignedAccounts ≤ h.numRequiredSignatures then
    if i < (h.numRequiredSignatures - h.numCreditOnlySignedAccounts).toNat then some true
    else if i ≥ h.numRequiredSignatures.toNat then
      if h.numCreditOnlyUnsignedAccounts.toNat ≤ m.accountKeys.length then
        some (decide (i < m.accountKeys.length - h.numCreditOnlyUnsignedAccounts.toNat))
      else none
    else some false
  else none

/-- `get_account_keys_by_lock_type`: the credit-debit keys and the credit-only keys, in order. -/
def getAccountKeysByLockType (m : Message) : Option (List Pubkey × List Pubkey) :=
  m.accountKeys.zipIdx.foldlM (fun acc e => do
    let creditDebit ← m.isCreditDebit e.2
    pure (if creditDebit then (acc.1 ++ [e.1], acc.2) else (acc.1, acc.2 ++ [e.1]))) ([], [])

/-! ## The keys -/

theorem foldl_addKey (ms : List AccountMeta) (keys : InstructionKeys) :
    (ms.foldl addKey keys).signedKeys =
        keys.signedKeys ++ (ms.filter (·.isSigner)).map (·.pubkey) ∧
      (ms.foldl addKey keys).unsignedKeys =
        keys.unsignedKeys ++ (ms.filter (!·.isSigner)).map (·.pubkey) := by
  induction ms generalizing keys with
  | nil => simp
  | cons m ms ih =>
    rw [List.foldl_cons, (ih _).1, (ih _).2]
    by_cases hs : m.isSigner = true <;> simp [addKey, hs]

/-- The signed keys are the signers among the first metas of each key, and the unsigned keys the
others. -/
theorem getKeys_keys (instructions : List Instruction) (payer : Option Pubkey) :
    (getKeys instructions payer).signedKeys =
        (((keysAndSigned instructions payer).uniqueBy (·.pubkey)).filter (·.isSigner)).map
          (·.pubkey) ∧
      (getKeys instructions payer).unsignedKeys =
        (((keysAndSigned instructions payer).uniqueBy (·.pubkey)).filter (!·.isSigner)).map
          (·.pubkey) := by
  unfold getKeys
  simpa using
    foldl_addKey ((keysAndSigned instructions payer).uniqueBy (·.pubkey)) ⟨[], [], 0, 0⟩

/-- A compiled message names each key once. -/
theorem nodup_accountKeys {instructions : List Instruction} {payer : Option Pubkey}
    {m : Message} (h : newWithPayer instructions payer = some m) : m.accountKeys.Nodup := by
  simp only [newWithPayer, Option.bind_eq_bind, Option.bind_eq_some_iff, Option.pure_def,
    Option.some.injEq] at h
  obtain ⟨_, -, rfl⟩ := h
  obtain ⟨hs, hu⟩ := getKeys_keys instructions payer
  rw [hs, hu, ← List.map_append]
  -- the signers and the others split the first metas, whose keys are distinct
  exact (List.filter_append_perm _ _).map _ |>.nodup_iff.2 (List.nodup_map_uniqueBy _ _)

/-- With a payer, the payer is the first key. -/
theorem accountKeys_head {instructions : List Instruction} {p : Pubkey} {m : Message}
    (h : newWithPayer instructions (some p) = some m) : m.accountKeys.head? = some p := by
  simp only [newWithPayer, Option.bind_eq_bind, Option.bind_eq_some_iff, Option.pure_def,
    Option.some.injEq] at h
  obtain ⟨_, -, rfl⟩ := h
  rw [(getKeys_keys instructions (some p)).1]
  unfold keysAndSigned
  rw [List.uniqueBy_cons]
  simp

/-! ## A debitable key locked credit-only -/

/-- Two instructions of one program: the first takes a key as a credit-only signer, the second as a
debitable account. -/
def creditOnlySignerIxs : List Instruction :=
  [⟨⟨Vector.replicate 32 8⟩, [⟨⟨Vector.replicate 32 6⟩, true, false⟩], []⟩,
   ⟨⟨Vector.replicate 32 8⟩, [⟨⟨Vector.replicate 32 6⟩, false, true⟩], []⟩]

theorem keysAndSigned_creditOnlySignerIxs :
    keysAndSigned creditOnlySignerIxs none =
      [⟨⟨Vector.replicate 32 6⟩, true, false⟩,
       ⟨⟨Vector.replicate 32 6⟩, false, true⟩,
       ⟨⟨Vector.replicate 32 8⟩, false, false⟩] := by
  unfold keysAndSigned
  dsimp only
  -- the metas come in order already, so the stable sort leaves them where they are
  rw [List.mergeSort_of_pairwise (by decide)]
  decide

/-- The key's first meta after the sort is the credit-only signer's, so the message locks the key
credit-only although the second instruction marks it debitable; the program is the other
credit-only key. -/
theorem debitable_key_locked_credit_only :
    (newWithPayer creditOnlySignerIxs none).bind getAccountKeysByLockType =
      some ([], [⟨Vector.replicate 32 6⟩, ⟨Vector.replicate 32 8⟩]) := by
  simp only [newWithPayer, getKeys, keysAndSigned_creditOnlySignerIxs]
  decide

end Message

end Morgan
