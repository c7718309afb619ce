import Morgan.Lib.Machine
import Morgan.Runtime.Bank

/-!
# The tree of banks of a validator

`bank.rs`: a bank is made from its parent by `new_from_parent`, receives the ticks of its slot
(`register_tick` registers a blockhash at the last tick of each slot), processes transactions, and
is rooted by `squash`, which adds the slots of its parents to the roots of the accounts database
and of the status cache and cuts the bank from its parents.  Each bank holds its parent
(`Arc<Bank>`); the tree keeps each bank with the index of its parent, an earlier bank
(`BankTree.parent_lt`), and `parents` follows these links.

Freezing computes the bank hash and stores the slot hashes account, which no modelled function
reads; a frozen bank is only marked.  A step fails when the code panics or when an operation names
no bank of the tree.
-/

namespace Morgan

namespace Bank

/-- `freeze`. -/
def freeze (bank : Bank) : Bank := { bank with frozen := true }

/-- `register_tick`; `none` is the panic of `% 0` when a slot has no ticks. -/
def registerTick (bank : Bank) (hash : Hash) : Option Bank :=
  let tickHeight := bank.tickHeight + 1
  if bank.ticksPerSlot = 0 then none
  else if tickHeight % bank.ticksPerSlot = bank.ticksPerSlot - 1 then
    some { bank with tickHeight, blockhashQueue := bank.blockhashQueue.registerHash hash }
  else some { bank with tickHeight }

/-- `new_from_parent`, given the slots of the new bank's parents, nearest first (`parents()`);
`none` is the panic of its assertion that the two slots differ. -/
def newFromParent (parent : Bank) (parentSlots : List Fork) (collectorId : Pubkey) (slot : Fork) :
    Option Bank :=
  if slot = parent.slot then none
  else some
    { slot, parent := some parent.slot, ancestors := (slot, 0) :: parentSlots.zipIdx 1,
      blockhashQueue := parent.blockhashQueue, tickHeight := parent.tickHeight,
      ticksPerSlot := parent.ticksPerSlot, maxTickHeight := (slot + 1) * parent.ticksPerSlot - 1,
      collectorId, feeCalculator := parent.feeCalculator, accountLocks := [], frozen := false,
      messageProcessor := default }

/-- The roots `squash` adds: the parents' slots, to the accounts database oldest first and to the
status cache nearest first; `none` is the panic of the accounts index's assertion that roots
increase. -/
def squashRoots (s : Shared) (parentSlots : List Fork) : Option Shared := do
  let accountsDb ← parentSlots.reverse.foldlM AccountsDb.addRoot s.accountsDb
  pure ⟨accountsDb, parentSlots.foldl StatusCache.addRoot s.statusCache⟩

end Bank

/-- A bank with the index of its parent in the tree; `none` once it is squashed. -/
abbrev BankNode := Bank × Option Nat

/-- The parent index of the bank at an index, if any. -/
def parentIndex (banks : List BankNode) (i : Nat) : Option Nat := banks[i]?.bind Prod.snd

theorem parentIndex_modify (banks : List BankNode) (i : Nat) (f : Bank → Bank) (k : Nat) :
    parentIndex (banks.modify i fun n => (f n.1, n.2)) k = parentIndex banks k := by
  unfold parentIndex
  rw [List.getElem?_modify]
  rcases banks[k]? with _ | ⟨b, par⟩
  · rfl
  · by_cases hik : i = k <;> simp [hik]

theorem parentIndex_cut {banks : List BankNode} {i : Nat} {f : Bank → Bank} {k j : Nat}
    (h : parentIndex (banks.modify i fun n => (f n.1, none)) k = some j) :
    parentIndex banks k = some j := by
  unfold parentIndex at h ⊢
  rw [List.getElem?_modify] at h
  rcases hk : banks[k]? with _ | ⟨b, par⟩
  · simp [hk] at h
  · by_cases hik : i = k <;> simp_all

theorem parentIndex_append {banks : List BankNode} {b : Bank} {p k j : Nat}
    (h : parentIndex (banks ++ [(b, some p)]) k = some j) :
    parentIndex banks k = some j ∨ (k = banks.length ∧ j = p) := by
  unfold parentIndex at h ⊢
  rcases Nat.lt_or_ge k banks.length with hk | hk
  · left
    rwa [List.getElem?_append_left hk] at h
  · right
    rw [List.getElem?_append_right hk] at h
    rcases Nat.eq_or_lt_of_le hk with hk | hk
    · subst hk
      simp at h
      exact ⟨rfl, h.symm⟩
    · have : ([(b, some p)] : List BankNode)[k - banks.length]? = none := by
        simp only [List.getElem?_eq_none_iff, List.length_singleton]
        omega
      simp [this] at h

/-- The banks of a validator, with what they share.  A bank's parent was made before it. -/
structure BankTree where
  shared : Shared
  banks : List BankNode
  parent_lt : ∀ i j, parentIndex banks i = some j → j < i

namespace BankTree

/-- The bank of `Bank::new` alone. -/
def genesis (genesisBlock : GenesisBlock) : BankTree :=
  ⟨(Bank.new genesisBlock).1, [((Bank.new genesisBlock).2, none)], fun i j h => by
    cases i <;> simp [parentIndex] at h⟩

/-- Change the bank at an index. -/
def modifyBank (t : BankTree) (i : Nat) (f : Bank → Bank) : BankTree :=
  ⟨t.shared, t.banks.modify i fun n => (f n.1, n.2), fun k j h =>
    t.parent_lt k j ((parentIndex_modify t.banks i f k).symm.trans h)⟩

/-- Change the bank at an index and cut it from its parent. -/
def cutBank (t : BankTree) (i : Nat) (f : Bank → Bank) : BankTree :=
  ⟨t.shared, t.banks.modify i fun n => (f n.1, none), fun _ _ h => t.parent_lt _ _ (parentIndex_cut h)⟩

/-- Add a bank whose parent is the bank at `p`. -/
def addBank (t : BankTree) (bank : Bank) (p : Nat) (hp : p < t.banks.length) : BankTree :=
  ⟨t.shared, t.banks ++ [(bank, some p)], fun k j h => by
    rcases parentIndex_append h with h | ⟨rfl, rfl⟩
    · exact t.parent_lt k j h
    · exact hp⟩

/-- The chain of parent indexes from a start, nearest first, within `fuel` links. -/
def parentsFrom (banks : List BankNode) : Nat → Option Nat → List Nat
  | 0, _ => []
  | _, none => []
  | fuel + 1, some i => i :: parentsFrom banks fuel (parentIndex banks i)

/-- `parents()`: the indexes of the bank's parents, nearest first.  The indexes decrease along the
chain, so the bank's own index bounds its length. -/
def parents (t : BankTree) (i : Nat) : List Nat := parentsFrom t.banks i (parentIndex t.banks i)

/-- The slots of the parents of the bank at an index. -/
def parentSlots (t : BankTree) (i : Nat) : List Fork :=
  (t.parents i).filterMap fun j => t.banks[j]?.map (·.1.slot)

/-- What can be done to the banks of a validator. -/
inductive BankOp where
  | newFromParent (parent : Nat) (collectorId : Pubkey) (slot : Fork)
  | registerTick (bank : Nat) (hash : Hash)
  | processTransactions (bank : Nat) (txs : List Transaction) (draw : Fin 12)
  | squash (bank : Nat)

variable (libraries : NativeLoader.Libraries)

/-- One operation; the results of the transactions it processed. -/
def step (t : BankTree) : BankOp → Option (BankTree × List TxResult)
  | .newFromParent p collectorId slot =>
    if hp : p < t.banks.length then do
      -- the parent is frozen first, and the new bank's parents are the parent and its parents
      let parent := t.banks[p].1.freeze
      let bank ← parent.newFromParent (parent.slot :: t.parentSlots p) collectorId slot
      let frozen := t.modifyBank p Bank.freeze
      pure (frozen.addBank bank p (by simpa [frozen, modifyBank] using hp), [])
    else none
  | .registerTick i hash => do
    let (bank, _) ← t.banks[i]?
    let bank ← bank.registerTick hash
    pure (t.modifyBank i fun _ => bank, [])
  | .processTransactions i txs draw => do
    let (bank, _) ← t.banks[i]?
    let (shared, bank, results) ← Bank.processTransactions libraries draw t.shared bank txs
    pure ({ t.modifyBank i fun _ => bank with shared }, results)
  | .squash i =>
    if i < t.banks.length then do
      let shared ← Bank.squashRoots t.shared (t.parentSlots i)
      pure ({ t.cutBank i fun b => { b.freeze with parent := none } with shared }, [])
    else none

/-- A run of operations from a tree. -/
def run (t : BankTree) (ops : List BankOp) : Option (BankTree × List TxResult) :=
  Machine.run (step libraries) t ops

/-! ## What each operation does -/

@[simp] theorem shared_modifyBank (t : BankTree) (i : Nat) (f : Bank → Bank) :
    (t.modifyBank i f).shared = t.shared := rfl

@[simp] theorem banks_modifyBank (t : BankTree) (i : Nat) (f : Bank → Bank) :
    (t.modifyBank i f).banks = t.banks.modify i fun n => (f n.1, n.2) := rfl

@[simp] theorem shared_addBank (t : BankTree) (bank : Bank) (p : Nat) (hp : p < t.banks.length) :
    (t.addBank bank p hp).shared = t.shared := rfl

@[simp] theorem banks_addBank (t : BankTree) (bank : Bank) (p : Nat) (hp : p < t.banks.length) :
    (t.addBank bank p hp).banks = t.banks ++ [(bank, some p)] := rfl

@[simp] theorem banks_cutBank (t : BankTree) (i : Nat) (f : Bank → Bank) :
    (t.cutBank i f).banks = t.banks.modify i fun n => (f n.1, none) := rfl

theorem step_newFromParent {t : BankTree} {p : Nat} {b : Bank} {par : Option Nat}
    {collectorId : Pubkey} {slot : Fork} {bank : Bank} (hb : t.banks[p]? = some (b, par))
    (hnew : b.freeze.newFromParent (b.slot :: t.parentSlots p) collectorId slot = some bank) :
    ∃ hp, step libraries t (.newFromParent p collectorId slot) =
      some ((t.modifyBank p Bank.freeze).addBank bank p hp, []) := by
  obtain ⟨hp, hbp⟩ := List.getElem?_eq_some_iff.1 hb
  refine ⟨by simpa using hp, ?_⟩
  unfold step
  simp only [hp, dite_true, hbp]
  rw [show (b, par).1.freeze.slot = b.slot from rfl, hnew]
  rfl

theorem step_registerTick {t : BankTree} {i : Nat} {b : Bank} {par : Option Nat} {hash : Hash}
    {bank : Bank} (hb : t.banks[i]? = some (b, par)) (htick : b.registerTick hash = some bank) :
    step libraries t (.registerTick i hash) = some (t.modifyBank i fun _ => bank, []) := by
  unfold step
  simp [hb, htick]

theorem step_processTransactions {t : BankTree} {i : Nat} {b : Bank} {par : Option Nat}
    {txs : List Transaction} {draw : Fin 12} {shared : Shared} {bank : Bank}
    {results : List TxResult} (hb : t.banks[i]? = some (b, par))
    (hproc : Bank.processTransactions libraries draw t.shared b txs = some (shared, bank, results)) :
    step libraries t (.processTransactions i txs draw) =
      some ({ t.modifyBank i fun _ => bank with shared }, results) := by
  unfold step
  simp [hb, hproc]

theorem step_squash {t : BankTree} {i : Nat} {shared : Shared} (hi : i < t.banks.length)
    (hroots : Bank.squashRoots t.shared (t.parentSlots i) = some shared) :
    step libraries t (.squash i) =
      some ({ t.cutBank i fun b => { b.freeze with parent := none } with shared }, []) := by
  unfold step
  simp [hi, hroots]

end BankTree

end Morgan
