import Morgan.Runtime.BankProof

/-!
# What the runtime's check of an instruction guarantees

After a program runs, `execute_instruction` checks each account against its state before the call
(`verify_instruction`) and compares the `u64` totals of the difs.  An accepted instruction
(`executeInstruction_verified`) changed no owner unless the program is the system program, took no
difs from an account the program does not own, and changed that account's data only through the
system program; and the totals agree modulo `2 ^ 64`.  The totals are sums in wrapping `u64`, so
they agree even when the exact sum changed by `2 ^ 64`: a system transfer into an account that
wraps is accepted (`balance_check_misses_wrapped_total`).

`process_message` indexes what the bank loaded with the message's own indexes, and the system
program reads its second account without checking that it was given one: a transaction that passes
every check of the bank and loads its accounts still panics in `process_message`
(`admitted_transactions_panic_in_process_message`).
-/

namespace Morgan

open Rust

theorem verifyInstruction_eq_ok {programId preProgramId : Pubkey} {preDifs : UInt64}
    {preData : List UInt8} {account : Account}
    (h : verifyInstruction programId preProgramId preDifs preData account = .ok ()) :
    (preProgramId ≠ account.owner → programId = SYSTEM_PROGRAM_ID) ∧
      (programId ≠ account.owner → preDifs ≤ account.difs) ∧
      (programId ≠ account.owner → programId ≠ SYSTEM_PROGRAM_ID → preData = account.data) := by
  unfold verifyInstruction at h
  split_ifs at h with h₁ h₂ h₃
  refine ⟨fun hne => ?_, fun hne => ?_, fun hne hsys => ?_⟩
  · by_contra hsys
    exact h₁ ⟨hne, hsys⟩
  · by_contra hle
    exact h₂ ⟨hne, UInt64.not_le.1 hle⟩
  · by_contra hdata
    exact h₃ ⟨hne, hsys, hdata⟩

namespace MessageProcessor

variable (mp : MessageProcessor) (libraries : NativeLoader.Libraries)

/-- What `execute_instruction` returns on: the program id is one of the keys, every account passed
`verify_instruction` against its state before the call, and the `u64` totals agree. -/
theorem executeInstruction_eq_ok {message : Message} {instruction : CompiledInstruction}
    {executableAccounts : List (Pubkey × Account)} {programAccounts : List Account}
    {tickHeight : UInt64} {executable : List (Pubkey × Account)} {post : List Account}
    (h : mp.executeInstruction libraries message instruction executableAccounts programAccounts
      tickHeight = .ok (executable, post)) :
    ∃ programId, message.accountKeys[instruction.programIdsIndex.toNat]? = some programId ∧
      (∀ e ∈ programAccounts.zip post,
        verifyInstruction programId e.1.owner e.1.difs e.1.data e.2 = .ok ()) ∧
      sumDifs post = sumDifs programAccounts := by
  unfold executeInstruction at h
  rw [Outcome.bind_eq_ok] at h
  obtain ⟨programId, hid, h⟩ := h
  rw [Outcome.bind_eq_ok] at h
  obtain ⟨keyed, -, h⟩ := h
  rw [Outcome.bind_eq_ok] at h
  obtain ⟨⟨⟩, hverify, h⟩ := h
  split_ifs at h with hsum
  cases h
  exact ⟨programId, Outcome.ofOption_eq_ok.1 hid, Outcome.forM_eq_ok.1 hverify, (not_not.1 hsum).symm⟩

/-- An accepted instruction: only the system program changed an owner, an account the program does
not own after the call lost no difs and kept its data unless the program is the system program, and
the `u64` total of the difs is unchanged. -/
theorem executeInstruction_verified {message : Message} {instruction : CompiledInstruction}
    {executableAccounts : List (Pubkey × Account)} {programAccounts : List Account}
    {tickHeight : UInt64} {executable : List (Pubkey × Account)} {post : List Account}
    (h : mp.executeInstruction libraries message instruction executableAccounts programAccounts
      tickHeight = .ok (executable, post)) :
    ∃ programId, message.accountKeys[instruction.programIdsIndex.toNat]? = some programId ∧
      (∀ e ∈ programAccounts.zip post,
        (e.1.owner ≠ e.2.owner → programId = SYSTEM_PROGRAM_ID) ∧
        (programId ≠ e.2.owner → e.1.difs ≤ e.2.difs) ∧
        (programId ≠ e.2.owner → programId ≠ SYSTEM_PROGRAM_ID → e.1.data = e.2.data)) ∧
      sumDifs post = sumDifs programAccounts := by
  obtain ⟨programId, hid, hverify, hsum⟩ := mp.executeInstruction_eq_ok libraries h
  exact ⟨programId, hid, fun e he => verifyInstruction_eq_ok (hverify e he), hsum⟩

end MessageProcessor

/-! ## The total is a wrapping sum -/

/-- An account one dif short of `u64::MAX`. -/
def nearlyFull : Pubkey := ⟨Vector.replicate 32 8⟩

/-- `SystemInstruction::Transfer { difs: 5 }` as bincode writes it. -/
def transferFive : List UInt8 := [2, 0, 0, 0, 5, 0, 0, 0, 0, 0, 0, 0]

/-- Five difs from `payerA` to `nearlyFull`. -/
def wrappingTransfer : CompiledInstruction := ⟨2, [0, 1], transferFive⟩

def wrappingMessage : Message :=
  ⟨⟨1, 0, 1⟩, [payerA, nearlyFull, SYSTEM_PROGRAM_ID], genesis.hash, [wrappingTransfer]⟩

/-- The loader chain of the system program, as `load_executable_accounts` gives it. -/
def systemLoaderChain : List (Pubkey × Account) :=
  [(NATIVE_LOADER_ID, createLoadableAccount "morgan_system_program".toUTF8.toList)]

/-- The recipient's balance wraps to 4 and the payer's drops to 5: the `u64` totals are both 9 and
the instruction is accepted, while the exact total fell from `2 ^ 64 + 9` to 9. -/
theorem balance_check_misses_wrapped_total :
    (default : MessageProcessor).executeInstruction (fun _ => none) wrappingMessage wrappingTransfer
        systemLoaderChain [systemAccount 10, systemAccount 0xFFFFFFFFFFFFFFFF] 0 =
      .ok (systemLoaderChain, [systemAccount 5, systemAccount 4]) ∧
    ([systemAccount 10, systemAccount 0xFFFFFFFFFFFFFFFF].map (·.difs.toNat)).sum = 2 ^ 64 + 9 ∧
    ([systemAccount 5, systemAccount 4].map (·.difs.toNat)).sum = 9 := by
  -- the loader chain's name goes through String.toUTF8, which only the kernel unfolds
  decide +kernel

/-! ## A panic on an admitted transaction -/

/-- A transfer that names the payer only. -/
def transferWithoutRecipient : Transaction :=
  ⟨[⟨Vector.replicate 64 6⟩],
    ⟨⟨1, 0, 1⟩, [payerA, SYSTEM_PROGRAM_ID], genesis.hash, [⟨1, [0], transferOne⟩]⟩⟩

/-- A transfer whose recipient index names the program id, which the bank does not load as an
account. -/
def transferToProgramId : Transaction :=
  ⟨[⟨Vector.replicate 64 6⟩],
    ⟨⟨1, 0, 1⟩, [payerA, SYSTEM_PROGRAM_ID], genesis.hash, [⟨1, [0, 1], transferOne⟩]⟩⟩

/-- Both transactions pass the bank's checks and load their accounts; the first panics when the
system program reads its second account, the second when `get_subset_unchecked_mut` indexes the
one loaded account at 1. -/
theorem admitted_transactions_panic_in_process_message :
    Bank.checkTransactions (Bank.new genesis).1 (Bank.new genesis).2
        [transferWithoutRecipient, transferToProgramId] [.ok (), .ok ()] MAX_RECENT_BLOCKHASHES =
      [.ok (), .ok ()] ∧
    ((Accounts.loadAccounts (Bank.new genesis).1.accountsDb (Bank.new genesis).2.ancestors
        [transferWithoutRecipient, transferToProgramId] [.ok (), .ok ()] genesis.feeCalculator).map
        (·.map fun r => r.isOk)) = some [true, true] ∧
    processOnGenesis [transferWithoutRecipient] = none ∧
    processOnGenesis [transferToProgramId] = none := by
  decide +kernel

end Morgan
