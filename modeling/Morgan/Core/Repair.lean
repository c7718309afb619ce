import Mathlib
import Morgan.Core.MissingIndexes

/-!
# Generating repair requests

`fixMissingSpotService.rs`: the repair service asks peers for the blobs its ledger misses.  From the
root it walks the slots chained by `next_slots` with a stack (`generate_repairs_for_fork`), and for
each slot that is not full asks for the missing indexes below `received`, or for the highest blob
when none is missing below it (`generate_repairs_for_slot`); then it asks for the orphans.

The walk keeps no set of visited slots and ends only when the stack is empty or the budget of
`max_repairs` requests is reached.  A full slot adds no request, so a cycle of full slots keeps it
going for ever (`generateRepairsForFork_trapped`); blobs whose parents name each other make such a
cycle in one batch (`generate_repairs_loops_on_parent_cycle`).  The walk runs here with a bound on
its iterations, `none` standing for a walk that has not ended within it.

The `Orphans` column is a predicate in the ledger model; `get_orphans` reads its keys in order,
which enter as the list `orphanKeys`.
-/

namespace Morgan

/-- `RepairType`. -/
inductive RepairType where
  | orphan (slot : Slot)
  | highestBlob (slot : Slot) (index : UInt64)
  | blob (slot : Slot) (index : UInt64)
  deriving DecidableEq, Repr

/-- `MAX_REPAIR_LENGTH`. -/
def MAX_REPAIR_LENGTH : Nat := 16

/-- `MAX_ORPHANS`. -/
def MAX_ORPHANS : Nat := 5

/-- `SlotMeta { slot, ..SlotMeta::default() }`. -/
def SlotMeta.default (slot : Slot) : SlotMeta := ⟨slot, 0, 0, 0, 0, [], false⟩

namespace Ledger

/-- `get_orphans`: the keys of the `Orphans` column in order, stopping once more than `max` are
read. -/
def getOrphans (orphanKeys : List Slot) (max : Option Nat) : List Slot :=
  go orphanKeys []
where
  go : List Slot → List Slot → List Slot
    | [], results => results
    | key :: keys, results =>
      if max.any (results.length > ·) then results else go keys (results ++ [key])

/-- `generate_repairs_for_slot`. -/
def generateRepairsForSlot (l : Ledger) (slot : Slot) (slotMeta : SlotMeta) (maxRepairs : Nat) :
    List RepairType :=
  if slotMeta.isFull then []
  else if slotMeta.consumed = slotMeta.received then [.highestBlob slot slotMeta.received]
  else (l.findMissingDataIndexes slot slotMeta.consumed slotMeta.received maxRepairs).map
    (.blob slot)

/-- `generate_repairs_for_orphans`. -/
def generateRepairsForOrphans (orphans : List Slot) (repairs : List RepairType) :
    List RepairType :=
  repairs ++ orphans.map .orphan

/-- The loop of `generate_repairs_for_fork`, with at most `fuel` iterations; the stack has its top
first, and `pending_slots.extend(next_slots)` puts the last child on top. -/
def generateRepairsForFork (l : Ledger) (maxRepairs : Nat) :
    Nat → List RepairType → List Slot → Option (List RepairType)
  | _, repairs, [] => some repairs
  | 0, repairs, _ :: _ => if repairs.length < maxRepairs then none else some repairs
  | fuel + 1, repairs, slot :: pending =>
    if repairs.length < maxRepairs then
      match l.metaCf slot with
      | some slotMeta =>
        generateRepairsForFork l maxRepairs fuel
          (repairs ++ l.generateRepairsForSlot slot slotMeta (maxRepairs - repairs.length))
          (slotMeta.nextSlots.reverse ++ pending)
      -- a slot without metadata abandons the walk
      | none => some repairs
    else some repairs

/-- `generate_repairs`: the walk from the root, then the orphans. -/
def generateRepairs (l : Ledger) (orphanKeys : List Slot) (fuel : Nat) (root : Slot)
    (maxRepairs : Nat) : Option (List RepairType) :=
  (l.generateRepairsForFork maxRepairs fuel [] [root]).map
    (generateRepairsForOrphans (getOrphans orphanKeys (some MAX_ORPHANS)))

/-- The loop of `generate_repairs_in_range` over the slots `start..=end`, counted by `n`. -/
def generateRepairsInRangeLoop (l : Ledger) (maxRepairs : Nat) :
    Nat → Slot → List RepairType → List RepairType
  | 0, _, repairs => repairs
  | n + 1, slot, repairs =>
    if repairs.length ≥ maxRepairs then repairs
    else
      let slotMeta := (l.metaCf slot).getD (SlotMeta.default slot)
      generateRepairsInRangeLoop l maxRepairs n (slot + 1)
        (repairs ++ l.generateRepairsForSlot slot slotMeta (maxRepairs - repairs.length))

/-- `generate_repairs_in_range`. -/
def generateRepairsInRange (l : Ledger) (maxRepairs : Nat) (start «end» : Slot) :
    List RepairType :=
  l.generateRepairsInRangeLoop maxRepairs («end».toNat + 1 - start.toNat) start []

/-! ## A cycle of full slots traps the walk -/

/-- Slots that are full, have children, and whose children are again such slots. -/
def FullCycle (l : Ledger) (trapped : Slot → Prop) : Prop :=
  ∀ s, trapped s → ∃ m, l.metaCf s = some m ∧ m.isFull = true ∧ m.nextSlots ≠ [] ∧
    ∀ c ∈ m.nextSlots, trapped c

/-- A cycle of full slots read off each slot's fullness and children. -/
theorem FullCycle.of_chain {l : Ledger} {trapped : Slot → Prop}
    (h : ∀ s, trapped s → ∃ cs, (l.metaCf s).map (fun m => (m.isFull, m.nextSlots)) =
      some (true, cs) ∧ cs ≠ [] ∧ ∀ c ∈ cs, trapped c) : l.FullCycle trapped := by
  intro s hs
  obtain ⟨cs, hview, hne, hclosed⟩ := h s hs
  obtain ⟨m, hm, hmeta⟩ := Option.map_eq_some_iff.1 hview
  simp only [Prod.mk.injEq] at hmeta
  obtain ⟨hfull, rfl⟩ := hmeta
  exact ⟨m, hm, hfull, hne, hclosed⟩

/-- A full slot adds no request. -/
theorem generateRepairsForSlot_of_isFull (l : Ledger) {slot : Slot} {m : SlotMeta}
    (hfull : m.isFull = true) (maxRepairs : Nat) : l.generateRepairsForSlot slot m maxRepairs = [] :=
  by simp [generateRepairsForSlot, hfull]

/-- From a stack of trapped slots, one iteration leaves the requests as they are and the stack again
a nonempty stack of trapped slots; so no number of iterations ends the walk while the budget is not
reached.  The induction is on the bound. -/
theorem generateRepairsForFork_trapped (l : Ledger) {trapped : Slot → Prop}
    (hcycle : l.FullCycle trapped) {maxRepairs : Nat} {repairs : List RepairType}
    (hbudget : repairs.length < maxRepairs) :
    ∀ (fuel : Nat) (pending : List Slot), pending ≠ [] → (∀ s ∈ pending, trapped s) →
      l.generateRepairsForFork maxRepairs fuel repairs pending = none
  | _, [], hne, _ => absurd rfl hne
  | 0, _ :: _, _, _ => by simp [generateRepairsForFork, hbudget]
  | fuel + 1, s :: pending, _, hall => by
    obtain ⟨m, hm, hfull, hchildren, hclosed⟩ := hcycle s (hall s List.mem_cons_self)
    rw [generateRepairsForFork, if_pos hbudget, hm]
    simp only [generateRepairsForSlot_of_isFull l hfull, List.append_nil]
    refine generateRepairsForFork_trapped l hcycle hbudget fuel _ (by simp [hchildren]) ?_
    intro c hc
    rcases List.mem_append.1 hc with hc | hc
    · exact hclosed c (List.mem_reverse.1 hc)
    · exact hall c (List.mem_cons_of_mem s hc)

/-- The walk from a trapped root never ends, whatever the bound. -/
theorem generateRepairs_trapped (l : Ledger) {trapped : Slot → Prop}
    (hcycle : l.FullCycle trapped) (orphanKeys : List Slot) {root : Slot} (hroot : trapped root)
    {maxRepairs : Nat} (hmax : 0 < maxRepairs) (fuel : Nat) :
    l.generateRepairs orphanKeys fuel root maxRepairs = none := by
  rw [generateRepairs, generateRepairsForFork_trapped l hcycle hmax fuel [root] (by simp)
    (by simpa using hroot)]
  rfl

/-- Two blobs of slots 5 and 6, each flagged last, each naming the other slot as its parent. -/
def parentCycleBlobs : List Blob := [⟨5, 0, 6, true⟩, ⟨6, 0, 5, true⟩]

/-- A ledger with no metadata and no blobs. -/
def emptyLedger : Ledger := ⟨⟨fun _ => none, fun _ => false⟩, [], fun _ => false⟩

/-- Inserted into an empty ledger, the two blobs fill slots 5 and 6 and chain each to the other. -/
theorem insertDataBlobs_parent_cycle :
    ∃ l, emptyLedger.insertDataBlobs id 0 parentCycleBlobs = some (.ok l) ∧
      l.FullCycle fun s => s = 5 ∨ s = 6 := by
  refine ⟨_, rfl, FullCycle.of_chain ?_⟩
  rintro s (rfl | rfl)
  · exact ⟨[6], by decide, List.cons_ne_nil _ _, by simp⟩
  · exact ⟨[5], by decide, List.cons_ne_nil _ _, by simp⟩

end Ledger

end Morgan
