import Mathlib.Data.Finset.Basic
import Morgan.Lib.Outcome
import Morgan.Interface.Basic

/-!
# Bank forks

`treasuryForks.rs`: `BankForks` keeps the banks of the live forks in a map keyed by slot.  Each
bank carries the `ancestors` map frozen when it was created (its own slot and the slots of its
parents up to the last squashed bank); `descendants()` inverts these maps, and `set_root`
squashes the new root bank and prunes every bank whose slot is not in `descendants[&root]`.

A bank is seen here through the fields `BankForks` reads: its slot, the key set of its
`ancestors` map and whether it is frozen.  The map `banks` is a list of banks with distinct slots;
`HashMap` iteration order never matters, since every loop here commutes.  `descendants()` returns
a `HashMap<u64, HashSet<u64>>`, a partial function from slots to finite sets.
-/

namespace Morgan

/-- A bank as `BankForks` sees it. -/
structure ForkBank where
  slot : Slot
  /-- The keys of `bank.ancestors`: the bank's slot and its parents' slots. -/
  ancestors : Finset Slot
  frozen : Bool
  deriving DecidableEq

/-- The descendants map of `BankForks::descendants`, also read by `Locktower::is_locked_out`. -/
abbrev DescendantsMap := Slot → Option (Finset Slot)

/-- `BankForks`; `working_bank` is not read by the functions modelled. -/
structure BankForks where
  banks : List ForkBank
  root : Slot
  nodup : (banks.map (·.slot)).Nodup

namespace BankForks

/-- `BankForks::new(bank_slot, bank)`, with the bank stored under its own slot. -/
def new (bank : ForkBank) : BankForks := ⟨[bank], 0, by simp⟩

/-- `get`: the bank of a slot. -/
def get (forks : BankForks) (slot : Slot) : Option ForkBank := forks.banks.find? (·.slot = slot)

/-- One bank's contribution to `descendants()`: an entry for its own slot, and its slot added to
the entry of each of its proper ancestors (the loop over `set`, whose iterations touch distinct
keys). -/
def addDescendants (m : DescendantsMap) (bank : ForkBank) : DescendantsMap := fun x =>
  if x ∈ bank.ancestors ∧ x ≠ bank.slot then some (insert bank.slot ((m x).getD ∅))
  else if x = bank.slot then some ((m x).getD ∅)
  else m x

/-- `descendants()`. -/
def descendants (forks : BankForks) : DescendantsMap :=
  forks.banks.foldl addDescendants fun _ => none

/-- `ancestors()`: each bank's ancestors without its own slot. -/
def ancestorsMap (forks : BankForks) : Slot → Option (Finset Slot) := fun x =>
  (forks.get x).map fun bank => bank.ancestors.erase bank.slot

/-- `frozen_banks()`. -/
def frozenBanks (forks : BankForks) : List ForkBank := forks.banks.filter (·.frozen)

/-- `insert`: `assert!(prev.is_none())` panics when the slot already has a bank. -/
def insert (forks : BankForks) (bank : ForkBank) : Option BankForks :=
  if h : bank.slot ∈ forks.banks.map (·.slot) then none
  else some ⟨forks.banks ++ [bank], forks.root, by
    rw [List.map_append, List.nodup_append]
    exact ⟨forks.nodup, by simp, by simpa using h⟩⟩

theorem nodup_filter (forks : BankForks) (p : ForkBank → Bool) :
    ((forks.banks.filter p).map (·.slot)).Nodup :=
  forks.nodup.sublist (List.filter_sublist.map _)

/-- `prune_non_root`: keep the banks whose slot is in `descendants[&root]`; indexing the map at a
missing key panics. -/
def pruneNonRoot (forks : BankForks) (root : Slot) : Option BankForks := do
  let d ← forks.descendants root
  some ⟨forks.banks.filter (·.slot ∈ d), forks.root, forks.nodup_filter _⟩

/-- `set_root`: record the root, look its bank up (`expect` panics when it is missing), squash it
and prune.  Squashing acts on the bank's own state, not on the map. -/
def setRoot (forks : BankForks) (root : Slot) : Option BankForks := do
  let _ ← forks.get root
  { forks with root }.pruneNonRoot root

end BankForks

end Morgan
