import Morgan.Runtime.BankTree
import Morgan.Runtime.BankProof

/-!
# Runs of the bank tree: chains of slots, and a replay after 121 roots

A run that follows the slot schedule with one tick per slot builds a chain of banks, each the
child of the one before (`run_chainOps`): the bank of slot `n` has registered the hash of every
slot, and within `MAX_RECENT_BLOCKHASHES` slots no hash expires from its queue
(`tickQueue_fields`).

The blockhash queue accepts a hash while it is at most `MAX_RECENT_BLOCKHASHES` registrations
old, the bound included, while the status cache forgets the signatures of a fork once more than
`MAX_CACHE_ENTRIES` roots are above it.  Squashing the bank of slot 121 roots its 121 parents,
which purges the statuses of the genesis bank, while the genesis hash is still exactly 120
registrations old: a transaction committed in the genesis bank commits again in its descendant
(`transaction_replayed_after_121_roots`).
-/

namespace Morgan

namespace BlockhashQueue

@[simp] theorem hashHeight_registerHash (q : BlockhashQueue) (hash : Hash) :
    (q.registerHash hash).hashHeight = q.hashHeight + 1 := rfl

@[simp] theorem maxAge_registerHash (q : BlockhashQueue) (hash : Hash) :
    (q.registerHash hash).maxAge = q.maxAge := rfl

@[simp] theorem lastHash_registerHash (q : BlockhashQueue) (hash : Hash) :
    (q.registerHash hash).lastHash = some hash := rfl

theorem checkAge_of_le {hashHeight age : UInt64} {maxAge : Nat} (hage : age ≤ hashHeight)
    (hmax : maxAge < 2 ^ 64) (h : hashHeight.toNat - age.toNat ≤ maxAge) :
    checkAge hashHeight maxAge age = true := by
  unfold checkAge
  rw [decide_eq_true_iff, UInt64.le_iff_toNat_le, UInt64.toNat_sub_of_le _ _ hage,
    UInt64.toNat_ofNat', Nat.mod_eq_of_lt hmax]
  exact h

/-- A registration that drops no hash appends the new one under the next height. -/
theorem ages_registerHash_of_fresh {q : BlockhashQueue} {hash : Hash}
    (hfresh : hash ∉ q.ages.keys)
    (hwindow : ∀ e ∈ q.ages, checkAge (q.hashHeight + 1) q.maxAge e.2 = true) :
    (q.registerHash hash).ages = q.ages ++ [(hash, q.hashHeight + 1)] := by
  have hkeep : (if q.ages.length ≥ q.maxAge then
      q.ages.filter (checkAge (q.hashHeight + 1) q.maxAge ·.2) else q.ages) = q.ages := by
    split_ifs
    · exact List.filter_eq_self.2 hwindow
    · rfl
  simp only [registerHash, hkeep]
  exact AssocMap.set_of_not_mem hfresh _

end BlockhashQueue

namespace Bank

@[simp] theorem slot_freeze (bank : Bank) : bank.freeze.slot = bank.slot := rfl

/-- With one tick per slot, every tick registers its hash. -/
theorem registerTick_of_one {bank : Bank} (h : bank.ticksPerSlot = 1) (hash : Hash) :
    bank.registerTick hash = some
      { bank with tickHeight := bank.tickHeight + 1,
                  blockhashQueue := bank.blockhashQueue.registerHash hash } := by
  simp [registerTick, h]

theorem newFromParent_of_ne {parent : Bank} {slot : Fork} (h : slot ≠ parent.slot)
    (parentSlots : List Fork) (collectorId : Pubkey) :
    parent.newFromParent parentSlots collectorId slot = some
      { slot, parent := some parent.slot, ancestors := (slot, 0) :: parentSlots.zipIdx 1,
        blockhashQueue := parent.blockhashQueue, tickHeight := parent.tickHeight,
        ticksPerSlot := parent.ticksPerSlot,
        maxTickHeight := (slot + 1) * parent.ticksPerSlot - 1, collectorId,
        feeCalculator := parent.feeCalculator, accountLocks := [], frozen := false,
        messageProcessor := default } := by
  simp [newFromParent, h]

/-- What a bank made by `new_from_parent` takes from its parent. -/
theorem newFromParent_inherits {parent bank : Bank} {parentSlots : List Fork}
    {collectorId : Pubkey} {slot : Fork}
    (h : parent.newFromParent parentSlots collectorId slot = some bank) :
    bank.blockhashQueue = parent.blockhashQueue ∧ bank.tickHeight = parent.tickHeight ∧
      bank.ticksPerSlot = parent.ticksPerSlot ∧ bank.feeCalculator = parent.feeCalculator := by
  unfold newFromParent at h
  split_ifs at h
  cases h
  exact ⟨rfl, rfl, rfl, rfl⟩

/-- Processing transactions changes no field of the bank but its locks. -/
theorem processTransactions_bank {libraries : NativeLoader.Libraries} {draw : Fin 12}
    {s s' : Shared} {bank bank' : Bank} {txs : List Transaction} {results : List TxResult}
    (h : processTransactions libraries draw s bank txs = some (s', bank', results)) :
    bank' = { bank with accountLocks := bank'.accountLocks } := by
  simp only [processTransactions, Option.bind_eq_bind, Option.bind_eq_some_iff] at h
  obtain ⟨⟨lockResults, locks⟩, -, ⟨s'', results'⟩, -, h⟩ := h
  simp only [Option.pure_def, Option.some.injEq, Prod.mk.injEq] at h
  obtain ⟨-, rfl, -⟩ := h
  rfl

end Bank

namespace BankTree

variable (libraries : NativeLoader.Libraries)

/-- The slot and parent index of each bank. -/
def shape (t : BankTree) : List (Fork × Option Nat) := t.banks.map fun n => (n.1.slot, n.2)

/-- A chain of `n + 1` banks: bank `j` is at slot `j`, and its parent is bank `j - 1`. -/
def chainShape (n : Nat) : List (Fork × Option Nat) :=
  (List.range (n + 1)).map fun j => (UInt64.ofNat j, if j = 0 then none else some (j - 1))

theorem chainShape_succ (n : Nat) :
    chainShape (n + 1) = chainShape n ++ [(UInt64.ofNat (n + 1), some n)] := by
  rw [chainShape, List.range_succ, List.map_append, ← chainShape]
  simp

theorem shape_modifyBank (t : BankTree) (i : Nat) {f : Bank → Bank}
    (hf : ∀ b par, t.banks[i]? = some (b, par) → (f b).slot = b.slot) :
    (t.modifyBank i f).shape = t.shape := by
  apply List.ext_getElem?
  intro j
  simp only [shape, banks_modifyBank, List.getElem?_map, List.getElem?_modify]
  rcases hj : t.banks[j]? with _ | ⟨b, par⟩
  · rfl
  · by_cases hij : i = j
    · subst hij
      simp [hf b par hj]
    · simp [hij]

theorem shape_addBank (t : BankTree) (bank : Bank) (p : Nat) (hp : p < t.banks.length) :
    (t.addBank bank p hp).shape = t.shape ++ [(bank.slot, some p)] := by
  simp [shape]

theorem length_of_shape {t : BankTree} {n : Nat} (h : t.shape = chainShape n) :
    t.banks.length = n + 1 := by
  have := congrArg List.length h
  simpa [shape, chainShape] using this

theorem getElem?_of_shape {t : BankTree} {n j : Nat} (h : t.shape = chainShape n) (hj : j ≤ n) :
    ∃ b, t.banks[j]? = some (b, if j = 0 then none else some (j - 1)) ∧ b.slot = UInt64.ofNat j := by
  have := congrArg (·[j]?) h
  simp only [shape, chainShape, List.getElem?_map, List.getElem?_range (by omega : j < n + 1),
    Option.map_some] at this
  obtain ⟨⟨b, par⟩, hb, heq⟩ := Option.map_eq_some_iff.1 this
  simp only [Prod.mk.injEq] at heq
  exact ⟨b, by rw [hb, heq.2], heq.1⟩

theorem parentIndex_of_shape {t : BankTree} {n j : Nat} (h : t.shape = chainShape n)
    (hj : j ≤ n) : parentIndex t.banks j = if j = 0 then none else some (j - 1) := by
  obtain ⟨b, hb, -⟩ := getElem?_of_shape h hj
  simp [parentIndex, hb]

theorem slot_of_shape {t : BankTree} {n j : Nat} (h : t.shape = chainShape n) (hj : j ≤ n) :
    t.banks[j]?.map (·.1.slot) = some (UInt64.ofNat j) := by
  obtain ⟨b, hb, hslot⟩ := getElem?_of_shape h hj
  simp [hb, hslot]

/-- Along a chain, the parents of bank `m` are the banks below it, nearest first. -/
theorem parentsFrom_of_shape {t : BankTree} {n : Nat} (h : t.shape = chainShape n) :
    ∀ {m fuel : Nat}, m ≤ n → m < fuel →
      parentsFrom t.banks fuel (some m) = (List.range (m + 1)).reverse
  | 0, fuel + 1, _, _ => by
    rw [parentsFrom, parentIndex_of_shape h (Nat.zero_le n), if_pos rfl]
    cases fuel <;> rfl
  | m + 1, fuel + 1, hm, hfuel => by
    rw [parentsFrom, parentIndex_of_shape h hm, if_neg (Nat.succ_ne_zero m), Nat.add_sub_cancel,
      parentsFrom_of_shape h (by omega) (by omega),
      List.range_succ (n := m + 1), List.reverse_append]
    rfl

theorem parentSlots_of_shape {t : BankTree} {n i : Nat} (h : t.shape = chainShape n)
    (hi : i ≤ n) : t.parentSlots i = ((List.range i).reverse).map UInt64.ofNat := by
  have hparents : t.parents i = (List.range i).reverse := by
    unfold parents
    rw [parentIndex_of_shape h hi]
    cases i with
    | zero => cases t.banks <;> rfl
    | succ m => exact parentsFrom_of_shape h (by omega) (by omega)
  rw [parentSlots, hparents, List.filterMap_eq_map_iff_forall_eq_some]
  intro j hj
  exact slot_of_shape h (by simp at hj; omega)

/-- The operations that grow a chain from the bank at index 0: the bank at index `k + 1` is made
from the one at `k` for slot `k + 1`, and receives the one tick of its slot, of hash
`hashes (k + 1)`. -/
def chainOps (collectorId : Pubkey) (hashes : Nat → Hash) : Nat → List BankOp
  | 0 => []
  | k + 1 => chainOps collectorId hashes k ++
      [.newFromParent k collectorId (UInt64.ofNat (k + 1)), .registerTick (k + 1) (hashes (k + 1))]

/-- The tree after `chainOps` of `n` slots from a bank `b0` at slot 0: a chain whose last bank has
the ticks per slot and the fee calculator of `b0`, one more tick per slot, and the hash of each
slot registered. -/
structure IsChain (b0 : Bank) (hashes : Nat → Hash) (n : Nat) (t : BankTree) : Prop where
  shape_eq : t.shape = chainShape n
  last : ∃ b par, t.banks[n]? = some (b, par) ∧
    b.blockhashQueue = ((List.range n).map fun j => hashes (j + 1)).foldl
      BlockhashQueue.registerHash b0.blockhashQueue ∧
    b.tickHeight = b0.tickHeight + UInt64.ofNat n ∧ b.ticksPerSlot = b0.ticksPerSlot ∧
    b.feeCalculator = b0.feeCalculator

/-- A new bank after the last one of a chain, for the next slot, extends the chain. -/
theorem step_newFromParent_last {t : BankTree} {n : Nat} (h : t.shape = chainShape n)
    {b : Bank} {par : Option Nat} (hb : t.banks[n]? = some (b, par)) (hn : n + 1 < 2 ^ 64)
    (collectorId : Pubkey) :
    ∃ bank hp, b.freeze.newFromParent (b.slot :: t.parentSlots n) collectorId
        (UInt64.ofNat (n + 1)) = some bank ∧
      step libraries t (.newFromParent n collectorId (UInt64.ofNat (n + 1))) =
        some ((t.modifyBank n Bank.freeze).addBank bank n hp, []) ∧
      ((t.modifyBank n Bank.freeze).addBank bank n hp).shape = chainShape (n + 1) := by
  have hslot : b.slot = UInt64.ofNat n := by
    simpa [hb] using slot_of_shape h le_rfl
  have hne : UInt64.ofNat (n + 1) ≠ b.freeze.slot := by
    rw [Bank.slot_freeze, hslot]
    intro heq
    have := congrArg UInt64.toNat heq
    rw [UInt64.toNat_ofNat', UInt64.toNat_ofNat', Nat.mod_eq_of_lt hn,
      Nat.mod_eq_of_lt (by omega)] at this
    omega
  have hnew := Bank.newFromParent_of_ne hne (b.slot :: t.parentSlots n) collectorId
  obtain ⟨hp, hstep⟩ := step_newFromParent libraries hb hnew
  refine ⟨_, hp, hnew, hstep, ?_⟩
  rw [shape_addBank, shape_modifyBank _ _ (fun _ _ _ => Bank.slot_freeze _), h, chainShape_succ]

/-- A chain grows by one slot: a new bank for the next slot, then the tick of that slot. -/
theorem isChain_succ {b0 : Bank} {hashes : Nat → Hash} {n : Nat} {t : BankTree}
    (h : IsChain b0 hashes n t) (htps : b0.ticksPerSlot = 1) (hn : n + 1 < 2 ^ 64)
    (collectorId : Pubkey) :
    ∃ t', run libraries t [.newFromParent n collectorId (UInt64.ofNat (n + 1)),
        .registerTick (n + 1) (hashes (n + 1))] = some (t', []) ∧
      t'.shared = t.shared ∧ IsChain b0 hashes (n + 1) t' := by
  obtain ⟨b, par, hb, hq, htick, htps', hfee⟩ := h.last
  obtain ⟨bank, hp, hnew, hstep, hshape⟩ :=
    step_newFromParent_last libraries h.shape_eq hb hn collectorId
  obtain ⟨hq₁, htick₁, htps₁, hfee₁⟩ := Bank.newFromParent_inherits hnew
  have hb₁ : ((t.modifyBank n Bank.freeze).addBank bank n hp).banks[n + 1]? =
      some (bank, some n) := by
    simp [length_of_shape h.shape_eq]
  -- with one tick per slot, the tick registers the slot's hash
  have htick₂ := Bank.registerTick_of_one (htps₁.trans (htps'.trans htps)) (hashes (n + 1))
  have hstep₂ := step_registerTick libraries hb₁ htick₂
  set bank₂ : Bank :=
    { bank with tickHeight := bank.tickHeight + 1,
                blockhashQueue := bank.blockhashQueue.registerHash (hashes (n + 1)) }
  refine ⟨((t.modifyBank n Bank.freeze).addBank bank n hp).modifyBank (n + 1) fun _ => bank₂,
    ?_, rfl, ⟨?_, bank₂, some n, ?_, ?_, ?_, ?_, ?_⟩⟩
  · unfold run
    rw [Machine.run_cons, hstep, Option.bind_some, Machine.run_cons, hstep₂]
    rfl
  · rw [shape_modifyBank _ _ fun b par hb => ?_, hshape]
    rw [hb₁] at hb
    cases hb
    rfl
  · simp [length_of_shape h.shape_eq]
  · show bank.blockhashQueue.registerHash (hashes (n + 1)) = _
    rw [hq₁, List.range_succ, List.map_append, List.foldl_append, ← hq]
    rfl
  · show bank.tickHeight + 1 = _
    rw [htick₁, show b.freeze.tickHeight = b.tickHeight from rfl, htick, UInt64.ofNat_add,
      UInt64.add_assoc]
    rfl
  · exact htps₁.trans htps'
  · exact hfee₁.trans hfee

/-- The run of `chainOps` from a bank at slot 0 with one tick per slot builds the chain. -/
theorem run_chainOps {b0 : Bank} {hashes : Nat → Hash} {t : BankTree}
    (h : IsChain b0 hashes 0 t) (htps : b0.ticksPerSlot = 1) (collectorId : Pubkey) :
    ∀ n, n < 2 ^ 64 → ∃ t', run libraries t (chainOps collectorId hashes n) = some (t', []) ∧
      t'.shared = t.shared ∧ IsChain b0 hashes n t'
  | 0, _ => ⟨t, rfl, rfl, h⟩
  | n + 1, hn => by
    obtain ⟨t₁, hrun₁, hshared₁, h₁⟩ := run_chainOps h htps collectorId n (by omega)
    obtain ⟨t₂, hrun₂, hshared₂, h₂⟩ := isChain_succ libraries h₁ htps hn collectorId
    refine ⟨t₂, ?_, hshared₂.trans hshared₁, h₂⟩
    unfold run at hrun₁ hrun₂ ⊢
    rw [chainOps, Machine.run_append, hrun₁, Option.bind_some, hrun₂]
    rfl

end BankTree

/-! ## A transaction replayed after 121 roots -/

/-- A hash for each slot: 32 bytes of the slot number. -/
def slotHash (n : Nat) : Hash := ⟨Vector.replicate 32 (UInt8.ofNat n)⟩

theorem slotHash_inj {i j : Nat} (hi : i < 256) (hj : j < 256) (h : slotHash i = slotHash j) :
    i = j := by
  have hbyte := congrArg (fun h : Hash => h.bytes[0]) h
  simp only [slotHash, Vector.getElem_replicate] at hbyte
  have := congrArg UInt8.toNat hbyte
  rwa [UInt8.toNat_ofNat', UInt8.toNat_ofNat', Nat.mod_eq_of_lt hi, Nat.mod_eq_of_lt hj] at this

/-- The blockhash queue of a bank made from a genesis block of hash `slotHash 0`, after the one
tick of each of the slots `1..k`. -/
def tickQueue (k : Nat) : BlockhashQueue :=
  ((List.range k).map fun j => slotHash (j + 1)).foldl BlockhashQueue.registerHash
    ((BlockhashQueue.new MAX_RECENT_BLOCKHASHES).genesisHash (slotHash 0))

theorem tickQueue_succ (k : Nat) :
    tickQueue (k + 1) = (tickQueue k).registerHash (slotHash (k + 1)) := by
  rw [tickQueue, List.range_succ, List.map_append, List.foldl_append]
  rfl

/-- Within 120 slots no hash expires: the queue holds the hash of every slot under its number. -/
theorem tickQueue_fields : ∀ {k : Nat}, k ≤ 120 →
    (tickQueue k).hashHeight = UInt64.ofNat k ∧
      (tickQueue k).ages = (List.range (k + 1)).map (fun j => (slotHash j, UInt64.ofNat j)) ∧
      (tickQueue k).maxAge = MAX_RECENT_BLOCKHASHES
  | 0, _ => ⟨rfl, rfl, rfl⟩
  | k + 1, hk => by
    obtain ⟨hheight, hages, hmax⟩ := tickQueue_fields (k := k) (by omega)
    have hsucc : (tickQueue k).hashHeight + 1 = UInt64.ofNat (k + 1) := by
      rw [hheight, UInt64.ofNat_add]
      rfl
    -- the new hash is fresh, and every hash of the queue stays within the window
    have hfresh : slotHash (k + 1) ∉ (tickQueue k).ages.keys := by
      rw [hages]
      simp only [AssocMap.keys, List.map_map, List.mem_map, List.mem_range, not_exists, not_and]
      intro j hj heq
      have := slotHash_inj (by omega) (by omega) heq
      omega
    have hwindow : ∀ e ∈ (tickQueue k).ages,
        BlockhashQueue.checkAge ((tickQueue k).hashHeight + 1) (tickQueue k).maxAge e.2 = true := by
      rw [hages, hsucc, hmax]
      intro e he
      obtain ⟨j, hj, rfl⟩ := List.mem_map.1 he
      rw [List.mem_range] at hj
      have hjk : (UInt64.ofNat j).toNat = j := by
        rw [UInt64.toNat_ofNat', Nat.mod_eq_of_lt (by omega)]
      have hkk : (UInt64.ofNat (k + 1)).toNat = k + 1 := by
        rw [UInt64.toNat_ofNat', Nat.mod_eq_of_lt (by omega)]
      apply BlockhashQueue.checkAge_of_le
      · rw [UInt64.le_iff_toNat_le, hjk, hkk]
        omega
      · decide
      · rw [hjk, hkk]
        simp only [MAX_RECENT_BLOCKHASHES, MAX_HASH_AGE_IN_SECONDS]
        omega
    refine ⟨?_, ?_, ?_⟩
    · rw [tickQueue_succ, BlockhashQueue.hashHeight_registerHash, hsucc]
    · rw [tickQueue_succ, BlockhashQueue.ages_registerHash_of_fresh hfresh hwindow, hages, hsucc,
        List.range_succ (n := k + 1), List.map_append]
      rfl
    · rw [tickQueue_succ, BlockhashQueue.maxAge_registerHash, hmax]


/-- A genesis block with one tick per slot, no fee, and ten difs for `payerA`. -/
def replayGenesis : GenesisBlock :=
  ⟨[(payerA, systemAccount 10)], leader, ⟨0⟩, [], 1, slotHash 0⟩

/-- A transfer of one dif from `payerA` to `recipient` under the genesis hash. -/
def replayed : Transaction :=
  ⟨[⟨Vector.replicate 64 7⟩],
    ⟨⟨1, 0, 1⟩, [payerA, recipient, SYSTEM_PROGRAM_ID], replayGenesis.hash,
      [⟨2, [0, 1], transferOne⟩]⟩⟩

/-- The operations after the chain: make the bank of slot 121, squash it, and process
`replayed` there; `draw` is the offset `insert` draws for a new status cache entry. -/
def replayTail (draw : Fin 12) : List BankTree.BankOp :=
  [.newFromParent 120 leader 121, .squash 121, .processTransactions 121 [replayed] draw]

/-- Process `replayed` in the genesis bank, grow a chain of 120 slots of one tick each, then
`replayTail`. -/
def replayOps (draw : Fin 12) : List BankTree.BankOp :=
  [.processTransactions 0 [replayed] draw] ++ BankTree.chainOps leader slotHash 120 ++
    replayTail draw

/-- The bank of slot 121 once squashed. -/
def squashedBank : Bank :=
  { slot := 121, parent := none,
    ancestors := (121, 0) :: ((List.range 121).reverse.map UInt64.ofNat).zipIdx 1,
    blockhashQueue := ⟨120, some (slotHash 120),
      (List.range 121).map (fun j => (slotHash j, UInt64.ofNat j)), MAX_RECENT_BLOCKHASHES⟩,
    tickHeight := 120, ticksPerSlot := 1, maxTickHeight := 121, collectorId := leader,
    feeCalculator := ⟨0⟩, accountLocks := [], frozen := true, messageProcessor := default }

theorem tickQueue_eq_squashedBank : tickQueue 120 = squashedBank.blockhashQueue := by
  obtain ⟨hheight, hages, hmax⟩ := tickQueue_fields (k := 120) le_rfl
  have hlast : (tickQueue 120).lastHash = some (slotHash 120) := by
    rw [tickQueue_succ 119, BlockhashQueue.lastHash_registerHash]
  generalize tickQueue 120 = q at hheight hages hmax hlast
  obtain ⟨_, _, _, _⟩ := q
  simp only at hheight hages hmax hlast
  subst hheight hages hmax hlast
  rfl

/-- The first processing of `replayed` commits, and leaves the genesis bank as it was. -/
theorem replayed_commits_on_genesis :
    ∃ s, Bank.processTransactions (fun _ => none) 0 (Bank.new replayGenesis).1
      (Bank.new replayGenesis).2 [replayed] = some (s, (Bank.new replayGenesis).2, [.ok ()]) := by
  have hres : (Bank.processTransactions (fun _ => none) 0 (Bank.new replayGenesis).1
      (Bank.new replayGenesis).2 [replayed]).map (fun r => (r.2.1.accountLocks, r.2.2)) =
      some ([], [.ok ()]) := by
    decide
  obtain ⟨⟨s, b, r⟩, hr, heq⟩ := Option.map_eq_some_iff.1 hres
  simp only [Prod.mk.injEq] at heq
  refine ⟨s, ?_⟩
  rw [hr, Bank.processTransactions_bank hr, heq.1, heq.2]
  rfl

/-- The bank that slot 121 makes after the chain is `squashedBank` once squashed. -/
theorem squashedBank_of_chain {t : BankTree}
    (h : BankTree.IsChain (Bank.new replayGenesis).2 slotHash 120 t) {b bank : Bank}
    {par : Option Nat} (hb : t.banks[120]? = some (b, par))
    (hnew : b.freeze.newFromParent (b.slot :: t.parentSlots 120) leader (UInt64.ofNat (120 + 1)) =
      some bank) :
    { bank.freeze with parent := none } = squashedBank := by
  obtain ⟨b', par', hb', hq, htick, htps, hfee⟩ := h.last
  obtain ⟨rfl, rfl⟩ : b = b' ∧ par = par' := by simpa [hb] using hb'
  have hslot : b.slot = UInt64.ofNat 120 := by
    simpa [hb] using BankTree.slot_of_shape h.shape_eq le_rfl
  have hne : UInt64.ofNat (120 + 1) ≠ b.freeze.slot := by
    rw [Bank.slot_freeze, hslot]
    decide
  rw [Bank.newFromParent_of_ne hne, Option.some.injEq] at hnew
  subst hnew
  -- the fields the new bank takes from the last bank of the chain, and from the genesis bank
  have hgenesis : (Bank.new replayGenesis).2.blockhashQueue =
      (BlockhashQueue.new MAX_RECENT_BLOCKHASHES).genesisHash (slotHash 0) ∧
      (Bank.new replayGenesis).2.tickHeight = 0 ∧ (Bank.new replayGenesis).2.ticksPerSlot = 1 ∧
      (Bank.new replayGenesis).2.feeCalculator = ⟨0⟩ :=
    ⟨rfl, rfl, rfl, rfl⟩
  have hparents : UInt64.ofNat 120 :: (List.range 120).reverse.map UInt64.ofNat =
      (List.range 121).reverse.map UInt64.ofNat := by
    rw [List.range_succ (n := 120), List.reverse_append]
    rfl
  rw [BankTree.parentSlots_of_shape h.shape_eq le_rfl]
  simp only [Bank.freeze, hslot, hq, htick, htps, hfee, hgenesis.1, hgenesis.2.1,
    hgenesis.2.2.1, hgenesis.2.2.2, hparents]
  rw [← tickQueue.eq_1, tickQueue_eq_squashedBank]
  rfl

set_option maxRecDepth 5000 in
/-- After the chain, slot 121 is made and squashed, and `replayed` commits there. -/
theorem replayTail_commits {t : BankTree}
    (h : BankTree.IsChain (Bank.new replayGenesis).2 slotHash 120 t)
    (hfirst : Bank.processTransactions (fun _ => none) 0 (Bank.new replayGenesis).1
      (Bank.new replayGenesis).2 [replayed] =
        some (t.shared, (Bank.new replayGenesis).2, [.ok ()])) :
    (BankTree.run (fun _ => none) t (replayTail 0)).map (·.2) = some [.ok ()] := by
  obtain ⟨b, par, hb, -⟩ := h.last
  obtain ⟨bank, hp, hnew, hstep₁, hshape₁⟩ :=
    BankTree.step_newFromParent_last (fun _ => none) h.shape_eq hb (by decide) leader
  set t₁ := (t.modifyBank 120 Bank.freeze).addBank bank 120 hp
  have hbank := squashedBank_of_chain h hb hnew
  -- the squash roots the slots 0..120, after which the statuses of the genesis bank are gone
  have hreplay : ((Bank.processTransactions (fun _ => none) 0 (Bank.new replayGenesis).1
      (Bank.new replayGenesis).2 [replayed]).bind fun r =>
        (Bank.squashRoots r.1 ((List.range 121).reverse.map UInt64.ofNat)).bind fun s =>
          (Bank.processTransactions (fun _ => none) 0 s squashedBank [replayed]).map (·.2.2)) =
      some [.ok ()] := by
    decide
  rw [hfirst, Option.bind_some] at hreplay
  obtain ⟨s, hroots, hreplay⟩ := Option.bind_eq_some_iff.1 hreplay
  obtain ⟨⟨s', b', results⟩, hproc, hresults⟩ := Option.map_eq_some_iff.1 hreplay
  have hlen : 121 < t₁.banks.length := by
    simp [t₁, BankTree.length_of_shape h.shape_eq]
  have hstep₂ := BankTree.step_squash (fun _ => none) hlen
    (by rw [BankTree.parentSlots_of_shape hshape₁ le_rfl]; exact hroots)
  have hb₂ : (t₁.cutBank 121 fun b => { b.freeze with parent := none }).banks[121]? =
      some (squashedBank, none) := by
    rw [← hbank]
    simp [t₁, BankTree.length_of_shape h.shape_eq]
  have hstep₃ := BankTree.step_processTransactions (fun _ => none)
    (t := { t₁.cutBank 121 (fun b => { b.freeze with parent := none }) with shared := s }) hb₂ hproc
  simp only at hresults
  subst hresults
  unfold BankTree.run replayTail
  rw [Machine.run_cons, show (121 : Fork) = UInt64.ofNat (120 + 1) from rfl, hstep₁,
    Option.bind_some, Machine.run_cons, hstep₂, Option.bind_some, Machine.run_cons, hstep₃]
  rfl

theorem transaction_replayed_after_121_roots :
    (BankTree.run (fun _ => none) (BankTree.genesis replayGenesis) (replayOps 0)).map (·.2) =
      some [.ok (), .ok ()] := by
  obtain ⟨s, hfirst⟩ := replayed_commits_on_genesis
  set t₁ : BankTree :=
    { (BankTree.genesis replayGenesis).modifyBank 0 (fun _ => (Bank.new replayGenesis).2) with
      shared := s }
  have hrun₁ : BankTree.run (fun _ => none) (BankTree.genesis replayGenesis)
      [.processTransactions 0 [replayed] 0] = some (t₁, [.ok ()]) := by
    unfold BankTree.run
    rw [Machine.run_cons, BankTree.step_processTransactions _
      (show (BankTree.genesis replayGenesis).banks[0]? = some ((Bank.new replayGenesis).2, none)
        from rfl) hfirst]
    rfl
  -- the genesis bank, as the first processing left it, starts a chain of 120 slots
  have hchain₁ : BankTree.IsChain (Bank.new replayGenesis).2 slotHash 0 t₁ :=
    ⟨rfl, _, none, rfl, rfl, (UInt64.add_zero _).symm, rfl, rfl⟩
  obtain ⟨t₂, hrun₂, hshared₂, hchain₂⟩ :=
    BankTree.run_chainOps (fun _ => none) hchain₁ rfl leader 120 (by decide)
  obtain ⟨⟨t₃, out⟩, hrun₃, hout⟩ :=
    Option.map_eq_some_iff.1 (replayTail_commits hchain₂ (hshared₂ ▸ hfirst))
  unfold replayOps BankTree.run at *
  rw [Machine.run_append, Machine.run_append, hrun₁, Option.bind_some, hrun₂, Option.map_some,
    Option.bind_some, hrun₃]
  simp only at hout
  subst hout
  rfl

end Morgan
