import Morgan.Runtime.Bank
import Morgan.Controllers.EntryPoints

/-!
# Batches: what the locks cover, and what a batch does to the accounts

`lock_accounts` gives the transactions of one batch pairwise disjoint sets of locked keys
(`lockAccounts_disjoint`), but the locked keys leave out the trailing
`num_credit_only_unsigned_accounts`, while `store_accounts` writes every key of a committed
transaction.  Two transfers to one credit-only account in one batch both load it from the state
before the batch and both store it: one credit is lost, and difs vanish.

`load_tx_accounts` skips the program ids of a message, while `process_message` indexes the
loaded accounts with the message's own indexes and `store_accounts` pairs them with all the keys:
when a program id is not among the last keys, a program is handed, and the bank stores, accounts
under keys they were not loaded from.
-/

namespace Morgan

open Rust

namespace Accounts

/-! ## Locks of one batch -/

theorem lockAccount_ok {locks keys locks' : List Pubkey}
    (h : lockAccount locks keys = (.ok (), locks')) :
    (∀ k ∈ keys, k ∉ locks) ∧ locks' = keys.foldl (fun locks k => locks.insert k) locks := by
  unfold lockAccount at h
  split_ifs at h with hany
  · simp at h
  · simp only [Prod.mk.injEq, true_and] at h
    refine ⟨fun k hk hl => hany (List.any_eq_true.2 ⟨k, hk, by simpa using hl⟩), h.symm⟩

theorem mem_foldl_insert {locks : List Pubkey} {k : Pubkey} :
    ∀ keys : List Pubkey, k ∈ locks → k ∈ keys.foldl (fun locks k => locks.insert k) locks
  | [], hk => hk
  | _ :: keys, hk => mem_foldl_insert keys (List.mem_insert_of_mem hk)

theorem mem_foldl_insert_of_mem {locks keys : List Pubkey} {k : Pubkey} (hk : k ∈ keys) :
    k ∈ keys.foldl (fun locks k => locks.insert k) locks := by
  induction keys generalizing locks with
  | nil => simp at hk
  | cons x keys ih =>
    rcases List.mem_cons.1 hk with rfl | hk
    · exact mem_foldl_insert keys List.mem_insert_self
    · exact ih hk

theorem lockAccount_mono {locks keys : List Pubkey} {k : Pubkey} (hk : k ∈ locks) :
    k ∈ (lockAccount locks keys).2 := by
  unfold lockAccount
  split_ifs
  · exact hk
  · exact mem_foldl_insert keys hk

/-- What `lock_accounts` did with the first transaction of a batch it finished: locked its keys
or failed on them, then went on from the locks that left. -/
theorem lockAccounts_cons_eq_some {locks locks' : List Pubkey} {tx : Transaction}
    {rest : List Transaction} {results : List TxResult}
    (h : lockAccounts locks (tx :: rest) = some (results, locks')) :
    ∃ keys results', lockedKeys tx.message = some keys ∧
      lockAccounts (lockAccount locks keys).2 rest = some (results', locks') ∧
      results = (lockAccount locks keys).1 :: results' := by
  rw [lockAccounts_cons, Option.bind_eq_some_iff] at h
  obtain ⟨keys, hkeys, h⟩ := h
  rw [Option.bind_eq_some_iff] at h
  obtain ⟨⟨results', locks''⟩, hrest, hout⟩ := h
  simp only [Option.some.injEq, Prod.mk.injEq] at hout
  obtain ⟨rfl, rfl⟩ := hout
  exact ⟨keys, results', hkeys, hrest, rfl⟩

/-- The locks only grow during `lock_accounts`. -/
theorem lockAccounts_mono {locks locks' : List Pubkey} {results : List TxResult} :
    ∀ {txs : List Transaction}, lockAccounts locks txs = some (results, locks') →
      ∀ k ∈ locks, k ∈ locks'
  | [], h, k, hk => by
    rw [lockAccounts_nil, Option.some.injEq, Prod.mk.injEq] at h
    exact h.2 ▸ hk
  | tx :: rest, h, k, hk => by
    obtain ⟨keys, results', -, hrest, -⟩ := lockAccounts_cons_eq_some h
    exact lockAccounts_mono hrest k (lockAccount_mono hk)

/-- A transaction that `lock_accounts` locks avoids every key locked before the call. -/
theorem lockAccounts_ok_avoids {locks locks' : List Pubkey} {results : List TxResult} :
    ∀ {txs : List Transaction}, lockAccounts locks txs = some (results, locks') →
      ∀ {j : Nat} {tx : Transaction} {keys : List Pubkey}, txs[j]? = some tx →
        lockedKeys tx.message = some keys → results[j]? = some (.ok ()) → ∀ k ∈ keys, k ∉ locks
  | [], _, _, _, _, htx, _, _ => by simp at htx
  | tx :: rest, h, j, tx', keys', htx, hkeys', hres => by
    obtain ⟨keys, results', hkeys, hrest, rfl⟩ := lockAccounts_cons_eq_some h
    cases j with
    | zero =>
      simp only [List.getElem?_cons_zero, Option.some.injEq] at htx hres
      subst htx
      rw [hkeys] at hkeys'
      cases hkeys'
      have hlock : lockAccount locks keys' = (.ok (), (lockAccount locks keys').2) :=
        Prod.ext hres rfl
      exact (lockAccount_ok hlock).1
    | succ j =>
      simp only [List.getElem?_cons_succ] at htx hres
      intro k hk hl
      exact lockAccounts_ok_avoids hrest htx hkeys' hres k hk (lockAccount_mono hl)

/-- Two transactions of one batch that `lock_accounts` both locks hold disjoint sets of keys. -/
theorem lockAccounts_disjoint {locks locks' : List Pubkey} {results : List TxResult} :
    ∀ {txs : List Transaction}, lockAccounts locks txs = some (results, locks') →
      ∀ {i j : Nat} {txi txj : Transaction} {keysi keysj : List Pubkey}, i < j →
        txs[i]? = some txi → txs[j]? = some txj →
        lockedKeys txi.message = some keysi → lockedKeys txj.message = some keysj →
        results[i]? = some (.ok ()) → results[j]? = some (.ok ()) → ∀ k ∈ keysi, k ∉ keysj
  | [], _, _, _, _, _, _, _, _, htxi, _, _, _, _, _ => by simp at htxi
  | tx :: rest, h, i, j, txi, txj, keysi, keysj, hij, htxi, htxj, hki, hkj, hri, hrj => by
    obtain ⟨keys, results', hkeys, hrest, rfl⟩ := lockAccounts_cons_eq_some h
    obtain ⟨j, rfl⟩ : ∃ j', j = j' + 1 := ⟨j - 1, by omega⟩
    simp only [List.getElem?_cons_succ] at htxj hrj
    cases i with
    | zero =>
      -- the first transaction's keys are locked when the later one tries its own
      simp only [List.getElem?_cons_zero, Option.some.injEq] at htxi hri
      subst htxi
      rw [hkeys] at hki
      cases hki
      have hlock : lockAccount locks keysi = (.ok (), (lockAccount locks keysi).2) :=
        Prod.ext hri rfl
      intro k hk hkj'
      have hin : k ∈ (lockAccount locks keysi).2 := by
        rw [(lockAccount_ok hlock).2]
        exact mem_foldl_insert_of_mem hk
      exact lockAccounts_ok_avoids hrest htxj hkj hrj k hkj' hin
    | succ i =>
      simp only [List.getElem?_cons_succ] at htxi hri
      exact lockAccounts_disjoint hrest (by omega) htxi htxj hki hkj hri hrj

end Accounts

/-! ## Batches over a bank made from a genesis block -/

/-- The keys of the batches: two payers, a recipient without an account, a funded account and
the bootstrap leader. -/
def payerA : Pubkey := ⟨Vector.replicate 32 1⟩

def payerB : Pubkey := ⟨Vector.replicate 32 2⟩

def recipient : Pubkey := ⟨Vector.replicate 32 3⟩

def funded : Pubkey := ⟨Vector.replicate 32 4⟩

def leader : Pubkey := ⟨Vector.replicate 32 9⟩

/-- An account of the system program. -/
def systemAccount (difs : UInt64) : Account := ⟨difs, 0, [], SYSTEM_PROGRAM_ID, false⟩

/-- A genesis block with no fee: ten difs for each payer and five for `funded`. -/
def genesis : GenesisBlock :=
  ⟨[(payerA, systemAccount 10), (payerB, systemAccount 10), (funded, systemAccount 5)], leader,
    ⟨0⟩, [], 8, ⟨Vector.replicate 32 5⟩⟩

/-- `SystemInstruction::Transfer { difs: 1 }` as bincode writes it. -/
def transferOne : List UInt8 := [2, 0, 0, 0, 1, 0, 0, 0, 0, 0, 0, 0]

/-- A transfer of one dif from a payer to `recipient`; the header marks the recipient and the
system program as credit-only. -/
def creditOnlyTransfer (payer : Pubkey) (sig : UInt8) : Transaction :=
  ⟨[⟨Vector.replicate 64 sig⟩],
    ⟨⟨1, 0, 2⟩, [payer, recipient, SYSTEM_PROGRAM_ID], genesis.hash, [⟨2, [0, 1], transferOne⟩]⟩⟩

/-- A transfer of one dif whose message lists the system program between the payer and
`funded`. -/
def programIdInMiddle : Transaction :=
  ⟨[⟨Vector.replicate 64 6⟩],
    ⟨⟨1, 0, 0⟩, [payerA, SYSTEM_PROGRAM_ID, funded], genesis.hash, [⟨1, [0, 1], transferOne⟩]⟩⟩

/-- `process_transactions` on the bank of `genesis`, with no native library to open. -/
def processOnGenesis (txs : List Transaction) : Option (Shared × Bank × List TxResult) :=
  Bank.processTransactions (fun _ => none) 0 (Bank.new genesis).1 (Bank.new genesis).2 txs

theorem credit_only_transfers_lose_a_credit :
    (processOnGenesis [creditOnlyTransfer payerA 7, creditOnlyTransfer payerB 8]).map
        (fun r => (r.2.2, (Bank.getAccount r.1 r.2.1 recipient).map (·.difs))) =
      some ([.ok (), .ok ()], some 1) ∧
    ((processOnGenesis [creditOnlyTransfer payerA 7]).bind fun r =>
        Bank.processTransactions (fun _ => none) 0 r.1 r.2.1 [creditOnlyTransfer payerB 8]).map
        (fun r => (r.2.2, (Bank.getAccount r.1 r.2.1 recipient).map (·.difs))) =
      some ([.ok ()], some 2) := by
  decide

theorem batches_change_the_total_difs :
    (Bank.new genesis).1.accountsDb.totalDifs (Bank.new genesis).2.ancestors = 28 ∧
    (processOnGenesis [creditOnlyTransfer payerA 7, creditOnlyTransfer payerB 8]).map
        (fun r => (r.2.2, r.1.accountsDb.totalDifs r.2.1.ancestors)) =
      some ([.ok (), .ok ()], 27) ∧
    (processOnGenesis [programIdInMiddle]).map
        (fun r => (r.2.2, r.1.accountsDb.totalDifs r.2.1.ancestors)) = some ([.ok ()], 32) := by
  decide

theorem program_id_in_middle_misplaces_accounts :
    Accounts.loadTxAccounts (Bank.new genesis).1.accountsDb (Bank.new genesis).2.ancestors
        programIdInMiddle 0 = .ok [systemAccount 10, systemAccount 5] ∧
    MessageProcessor.instructionKeys programIdInMiddle.message ⟨1, [0, 1], transferOne⟩ =
      some [(payerA, true), (SYSTEM_PROGRAM_ID, false)] ∧
    (processOnGenesis [programIdInMiddle]).map
        (fun r => (r.2.2, Bank.getAccount r.1 r.2.1 SYSTEM_PROGRAM_ID,
          Bank.getAccount r.1 r.2.1 funded)) =
      some ([.ok ()], some (systemAccount 6), some (systemAccount 5)) := by
  decide

/-! ## A native program that panics -/

/-- `VoteInstruction::Vote(vec![])` as bincode writes it. -/
def emptyVote : List UInt8 := [2, 0, 0, 0, 0, 0, 0, 0, 0, 0, 0, 0]

def voteKey : Pubkey := ⟨Vector.replicate 32 7⟩

/-- The libraries of a validator that loads the vote program's entry point by its name. -/
def voteLibrary : NativeLoader.Libraries := fun name =>
  if name = "morgan_vote_controller".toUTF8.toList then some VoteInstruction.processInstruction
  else none

/-- A vote that names the payer and the vote account but no slot hashes account. -/
def voteWithoutSlotHashes : Transaction :=
  ⟨[⟨Vector.replicate 64 9⟩],
    ⟨⟨1, 0, 1⟩, [payerA, voteKey, VOTE_PROGRAM_ID], genesis.hash, [⟨2, [0, 1], emptyVote⟩]⟩⟩

theorem native_programs_panic_on_short_account_lists :
    VoteInstruction.processInstruction VOTE_PROGRAM_ID
        [⟨payerA, true, systemAccount 10⟩, ⟨voteKey, false, default⟩] emptyVote 0 = .panic ∧
      ConfigProcessor.processInstruction default [] [] 0 = .panic ∧
      Bank.processTransactions voteLibrary 0 (Bank.new genesis).1 (Bank.new genesis).2
        [voteWithoutSlotHashes] = none := by
  -- the library's name goes through String.toUTF8, which only the kernel unfolds
  decide +kernel

end Morgan
