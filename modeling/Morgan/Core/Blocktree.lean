import Morgan.Lib.Outcome
import Morgan.Lib.ForkTree
import Morgan.Interface.Basic

/-!
# Ledger slot metadata and roots

`blockBufferPool.rs` and `blockBufferPool/meta.rs`: the ledger keeps a `SlotMeta` for each slot it
has seen blobs of, chained to its parent by `parent_slot`, and a `Root` column marking the slots
that are rooted.  `set_root(new_root, prev_root)` walks `parent_slot` links from the new root and
marks every slot it meets until it reaches the previous root; the genesis slot is marked on its
own.

The walk is a `while` loop over metadata that unsigned blobs write, so it need not end: it is run
here with a bound on its iterations.  The columns are partial maps from slots; database errors
are not modelled.

When the previous root is an ancestor of the new one through `parent_slot` links, the walk ends
and marks the parent path between them (`setRoot_of_ancestorOrSelf`); otherwise it never returns
normally (`rootPath_ok_ancestorOrSelf`): it panics at a slot without metadata or runs forever.
-/

namespace Morgan

/-- `SlotMeta`. -/
structure SlotMeta where
  slot : Slot
  consumed : UInt64
  received : UInt64
  lastIndex : UInt64
  parentSlot : Slot
  nextSlots : List Slot
  isConnected : Bool
  deriving DecidableEq, Repr

namespace SlotMeta

/-- `SlotMeta::new(slot, parent_slot)`. -/
def new (slot parentSlot : Slot) : SlotMeta :=
  ⟨slot, 0, 0, UInt64.ofNat (2 ^ 64 - 1), parentSlot, [], decide (slot = 0)⟩

/-- `is_full`: the blob flagged last has been consumed. -/
def isFull (m : SlotMeta) : Bool :=
  if m.lastIndex = UInt64.ofNat (2 ^ 64 - 1) then false else decide (m.consumed = m.lastIndex + 1)

/-- `is_parent_set`: `u64::MAX` stands for an unknown parent. -/
def isParentSet (m : SlotMeta) : Bool := decide (m.parentSlot ≠ UInt64.ofNat (2 ^ 64 - 1))

end SlotMeta

/-- The `Meta` column (`meta_cf`) and the `Root` column of the ledger. -/
structure Blocktree where
  metaCf : Slot → Option SlotMeta
  roots : Slot → Bool

namespace Blocktree

/-- The loop of `set_root` with at most `fuel` iterations: `none` when the loop has not ended
within them; `some .panic` when `self.meta(current_slot).unwrap().unwrap()` finds no metadata;
otherwise the slots written to the batch. -/
def rootPath (bt : Blocktree) (prevRoot : Slot) : Nat → Slot → Option (Rust.Outcome Empty (List Slot))
  | 0, _ => none
  | fuel + 1, current =>
    if current = prevRoot then some (.ok [])
    else match bt.metaCf current with
      | none => some .panic
      | some m => (bt.rootPath prevRoot fuel m.parentSlot).map fun o => (current :: ·) <$> o

/-- The `Root` column with `slots` marked. -/
def markRoots (bt : Blocktree) (slots : List Slot) : Blocktree :=
  { bt with roots := fun s => bt.roots s || decide (s ∈ slots) }

/-- `set_root(new_root, prev_root)` with at most `fuel` iterations of its loop. -/
def setRoot (bt : Blocktree) (newRoot prevRoot : Slot) (fuel : Nat) :
    Option (Rust.Outcome Empty Blocktree) :=
  if newRoot = 0 then some (.ok (bt.markRoots [0]))
  else (bt.rootPath prevRoot fuel newRoot).map fun o => bt.markRoots <$> o

/-- `is_root`. -/
def isRoot (bt : Blocktree) (slot : Slot) : Bool := bt.roots slot

@[simp] theorem isRoot_markRoots (bt : Blocktree) (slots : List Slot) (s : Slot) :
    (bt.markRoots slots).isRoot s = (bt.isRoot s || decide (s ∈ slots)) := rfl

/-! ## The root walk -/

open ForkTree

/-- The parent links of the `Meta` column. -/
def parentOf (bt : Blocktree) (slot : Slot) : Option Slot := (bt.metaCf slot).map (·.parentSlot)

variable {bt : Blocktree} {prevRoot : Slot}

/-- A walk that returns normally follows the parent links down to the previous root. -/
theorem rootPath_eq_ok : ∀ {fuel : Nat} {current : Slot} {path : List Slot},
    bt.rootPath prevRoot fuel current = some (.ok path) → PathTo bt.parentOf prevRoot current path
  | 0, _, _, h => by cases h
  | fuel + 1, current, path, h => by
    unfold rootPath at h
    split_ifs at h with hc
    · cases h
      exact hc ▸ .stop
    · -- a slot with metadata: the walk went on from its parent
      cases hm : bt.metaCf current with
      | none => simp [hm] at h
      | some m =>
        simp only [hm] at h
        cases hrest : bt.rootPath prevRoot fuel m.parentSlot with
        | none => simp [hrest] at h
        | some o =>
          cases o with
          | ok rest =>
            simp only [hrest, Option.map_some, Option.some.injEq] at h
            cases h
            exact .step hc (by simp [parentOf, hm]) (rootPath_eq_ok hrest)
          | err e => cases e
          | panic => simp [hrest] at h

/-- Along a parent path the walk needs one iteration per slot, and one to see the previous root. -/
theorem rootPath_of_pathTo {current : Slot} {path : List Slot}
    (h : PathTo bt.parentOf prevRoot current path) :
    bt.rootPath prevRoot (path.length + 1) current = some (.ok path) := by
  induction h with
  | stop => simp [rootPath]
  | @step a p l hne hp _ ih =>
    obtain ⟨m, hm, rfl⟩ := Option.map_eq_some_iff.1 hp
    simp [rootPath, hne, hm, ih]

/-- The walk returns normally only when the previous root is an ancestor of the new one. -/
theorem rootPath_ok_ancestorOrSelf {fuel : Nat} {current : Slot} {path : List Slot}
    (h : bt.rootPath prevRoot fuel current = some (.ok path)) :
    AncestorOrSelf bt.parentOf prevRoot current :=
  (rootPath_eq_ok h).ancestorOrSelf

/-- `set_root(new_root, prev_root)` away from genesis, with the previous root an ancestor: the loop
ends, and the slots marked are the parent path from the new root down to the previous root,
excluded. -/
theorem setRoot_of_ancestorOrSelf {newRoot : Slot} (h0 : newRoot ≠ 0)
    (h : AncestorOrSelf bt.parentOf prevRoot newRoot) :
    ∃ path, PathTo bt.parentOf prevRoot newRoot path ∧
      bt.setRoot newRoot prevRoot (path.length + 1) = some (.ok (bt.markRoots path)) := by
  obtain ⟨path, hpath⟩ := PathTo.exists_of_ancestorOrSelf h
  refine ⟨path, hpath, ?_⟩
  simp [setRoot, h0, rootPath_of_pathTo hpath]

end Blocktree

end Morgan
