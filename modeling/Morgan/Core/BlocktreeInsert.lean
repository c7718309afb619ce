import Mathlib
import Morgan.Core.Blocktree
import Morgan.Lib.AssocMap

/-!
# Inserting data blobs into the ledger

`blockBufferPool.rs`, `insert_data_blobs`: one batch of data blobs goes through a working set of
slot metadata, read from the `Meta` column the first time a slot is met.  Each blob is checked
(`should_insert_blob`) and recorded (`insert_data_blob`: `consumed`, `received`, `last_index`);
then every slot of the working set is chained to its parent (`handle_chaining_for_slot`), which may
create a metadata placeholder for a parent not seen yet (an orphan) and propagates `is_connected`
to the descendants of a slot that has just become full.  The batch is written at the end.

The working set is a `HashMap` of `Rc<RefCell<SlotMeta>>`, and the order in which
`handle_chaining` visits it is the map's: the model takes that order as a parameter (`iter`).
`handle_chaining_for_slot` holds the mutable borrow of the slot's own cell while it borrows the
parent's; when a blob names its own slot as parent the two cells are one and the second borrow
panics (`handleChainingForSlot_self_parent`), for every batch that brings such a slot to the
working set (`insertDataBlobs_self_parent`).

Erasure recovery is left out: the ledger here holds data blobs only, and without coding blobs
`ErasureMeta::status` is never `CanRecover`, so `try_erasure_recover` returns `None`.  The
traversal of `traverse_children_mut` runs with a bound on its iterations.
-/

namespace Morgan

/-- A data blob, with the header fields the ledger reads. -/
structure Blob where
  slot : Slot
  index : UInt64
  parent : Slot
  lastInSlot : Bool
  deriving DecidableEq, Repr

/-- The columns `insert_data_blobs` reads and writes: `Meta` and `Root`, the keys of `Data`, and
`Orphans`. -/
structure Ledger extends Blocktree where
  data : List (Slot × UInt64)
  orphans : Slot → Bool

namespace SlotMeta

/-- `is_orphan`. -/
def isOrphan (m : SlotMeta) : Bool := !m.isParentSet

/-- `is_newly_completed_slot`: full, and either new or with more blobs consumed than the copy read
from the database. -/
def isNewlyCompleted (m : SlotMeta) (backup : Option SlotMeta) : Bool :=
  m.isFull && match backup with
    | none => true
    | some b => m.consumed != b.consumed

/-- `chain_new_slot_to_prev_slot`: the parent lists the slot among its children, and the slot is
connected when its parent is connected and full. -/
def chainNewSlotToPrevSlot (prev : SlotMeta) (slot : Slot) (m : SlotMeta) : SlotMeta × SlotMeta :=
  ({ prev with nextSlots := prev.nextSlots ++ [slot] },
   { m with isConnected := prev.isConnected && prev.isFull })

end SlotMeta

/-- The working set: each slot's metadata, with the copy read from the database, if any. -/
abbrev WorkingSet := AssocMap Slot (SlotMeta × Option SlotMeta)

namespace Ledger

/-! ## Checking and recording blobs -/

/-- The working-set entry for a blob's slot (`check_insert_data_blob`): the cached one; or the
database's, whose parent is filled in from the blob when it is an orphan; or a new one. -/
def slotEntry (l : Ledger) (ws : WorkingSet) (blob : Blob) : SlotMeta × Option SlotMeta :=
  match ws.get? blob.slot with
  | some e => e
  | none =>
    match l.metaCf blob.slot with
    | some m => (if m.isOrphan then { m with parentSlot := blob.parent } else m, some m)
    | none => (SlotMeta.new blob.slot blob.parent, none)

/-- `should_insert_blob`: the blob is new and below the consumed mark, it is not past the slot's
last blob, and a blob flagged last is not below a blob already received. -/
def shouldInsertBlob (l : Ledger) (prev : List (Slot × UInt64)) (m : SlotMeta) (blob : Blob) :
    Bool :=
  if blob.index < m.consumed || prev.contains (blob.slot, blob.index) ||
      l.data.contains (blob.slot, blob.index) then false
  else if blob.index ≥ m.lastIndex then false
  else if blob.lastInSlot && blob.index < m.received then false
  else true

/-- `get_slot_consecutive_blobs`: how many blobs of a slot are stored from index `i` on without a
gap, in the batch or the database, at most `fuel` of them. -/
def consecutiveBlobs (stored : List (Slot × UInt64)) (slot : Slot) : Nat → UInt64 → Nat
  | 0, _ => 0
  | fuel + 1, i =>
    if stored.contains (slot, i) then consecutiveBlobs stored slot fuel (i + 1) + 1 else 0

/-- `insert_data_blob`: the metadata after recording the blob.  The consumed mark moves past the
blob and the stored blobs that follow it when the blob fills the first gap. -/
def insertDataBlob (l : Ledger) (prev : List (Slot × UInt64)) (m : SlotMeta) (blob : Blob) :
    SlotMeta :=
  let stored := prev ++ l.data
  let consumed :=
    if m.consumed = blob.index then
      m.consumed + UInt64.ofNat (consecutiveBlobs stored blob.slot (stored.length + 1)
        (blob.index + 1)) + 1
    else m.consumed
  { m with
    consumed := consumed
    received := max (blob.index + 1) m.received
    lastIndex :=
      if m.lastIndex = UInt64.ofNat (2 ^ 64 - 1) ∧ blob.lastInSlot then blob.index
      else m.lastIndex }

/-- `check_insert_data_blob`: the slot joins the working set whether or not the blob is kept; a
kept blob joins the blobs inserted by the batch. -/
def checkInsertDataBlob (l : Ledger) (st : WorkingSet × List (Slot × UInt64)) (blob : Blob) :
    WorkingSet × List (Slot × UInt64) :=
  let e := l.slotEntry st.1 blob
  if l.shouldInsertBlob st.2 e.1 blob then
    (st.1.set blob.slot (l.insertDataBlob st.2 e.1 blob, e.2), st.2 ++ [(blob.slot, blob.index)])
  else (st.1.set blob.slot e, st.2)

/-- `insert_data_blob_batch`. -/
def insertDataBlobBatch (l : Ledger) (blobs : List Blob) : WorkingSet × List (Slot × UInt64) :=
  blobs.foldl l.checkInsertDataBlob ([], [])

/-! ## Chaining -/

/-- What chaining works on: the working set, the slots it loads or creates that are not in the
working set (`new_chained_slots`), and the writes to the `Orphans` column in order (`true` a put,
`false` a delete). -/
structure ChainState where
  ws : WorkingSet
  chained : AssocMap Slot SlotMeta
  orphanOps : List (Slot × Bool)

/-- The cell of a slot, from the working set or the chained slots. -/
def ChainState.metaOf (st : ChainState) (slot : Slot) : Option SlotMeta :=
  match st.ws.get? slot with
  | some (m, _) => some m
  | none => st.chained.get? slot

/-- Write through the cell of a slot, wherever it lives. -/
def ChainState.writeMeta (st : ChainState) (slot : Slot) (m : SlotMeta) : ChainState :=
  match st.ws.get? slot with
  | some (_, backup) => { st with ws := st.ws.set slot (m, backup) }
  | none => { st with chained := st.chained.set slot m }

/-- `find_slot_meta_else_create`: the cell of a slot, loading it from the database into the chained
slots, or creating there an orphan placeholder. -/
def findSlotMetaElseCreate (l : Ledger) (st : ChainState) (slot : Slot) : SlotMeta × ChainState :=
  match st.metaOf slot with
  | some m => (m, st)
  | none =>
    let m := (l.metaCf slot).getD (SlotMeta.new slot (UInt64.ofNat (2 ^ 64 - 1)))
    (m, { st with chained := st.chained.set slot m })

/-- `traverse_children_mut` with the slot function of `handle_chaining_for_slot`: from a stack of
slots, mark each popped slot connected and, when it is full, push its children, at most `fuel`
times; `none` when the stack is not empty by then. -/
def traverseChildren (l : Ledger) : Nat → List Slot → ChainState → Option ChainState
  | _, [], st => some st
  | 0, _ :: _, _ => none
  | fuel + 1, s :: stack, st =>
    match st.metaOf s with
    -- every pushed slot has its cell: the children are found or created when pushed
    | none => some st
    | some m =>
      let m := { m with isConnected := true }
      let st := st.writeMeta s m
      if m.isFull then
        let st := m.nextSlots.foldl (fun st c => (l.findSlotMetaElseCreate st c).2) st
        traverseChildren l fuel (m.nextSlots.reverse ++ stack) st
      else traverseChildren l fuel stack st

/-- The chaining step of `handle_chaining_for_slot`, for a slot that is new or was an orphan: the
parent's cell is found or created and the slot is chained to it.  The slot's own cell is borrowed
mutably the whole time, so a parent that is the slot itself panics. -/
def chainToParent (l : Ledger) (st : ChainState) (slot : Slot) (m : SlotMeta) :
    Rust.Outcome Empty (SlotMeta × ChainState) :=
  let prevSlot := m.parentSlot
  if prevSlot = slot then .panic
  else
    let found := l.findSlotMetaElseCreate st prevSlot
    let chained := SlotMeta.chainNewSlotToPrevSlot found.1 slot m
    let st := found.2.writeMeta prevSlot chained.1
    .ok (chained.2,
      { st with
        orphanOps :=
          if chained.1.isOrphan then st.orphanOps ++ [(prevSlot, true)] else st.orphanOps })

/-- Only a slot other than genesis that is new or was an orphan is chained. -/
def chainSlot (l : Ledger) (st : ChainState) (slot : Slot) (m : SlotMeta)
    (backup : Option SlotMeta) : Rust.Outcome Empty (SlotMeta × ChainState) :=
  if slot ≠ 0 ∧ (backup.isNone || backup.any SlotMeta.isOrphan) then l.chainToParent st slot m
  else .ok (m, st)

/-- `handle_chaining_for_slot`: chain a slot that is new or was an orphan, clear it from the
`Orphans` column if it was one, and propagate connectedness when it has just become full. -/
def handleChainingForSlot (l : Ledger) (fuel : Nat) (st : ChainState) (slot : Slot) :
    Option (Rust.Outcome Empty ChainState) :=
  match st.ws.get? slot with
  | none => some .panic
  | some (m, backup) =>
    let wasOrphan := backup.any SlotMeta.isOrphan
    match l.chainSlot st slot m backup with
    | .ok (m, st) =>
      let st := st.writeMeta slot m
      let st :=
        { st with orphanOps := if wasOrphan then st.orphanOps ++ [(slot, false)] else st.orphanOps }
      if m.isNewlyCompleted backup && m.isConnected then
        (l.traverseChildren fuel [slot] st).map .ok
      else some (.ok st)
    | .err e => nomatch e
    | .panic => some .panic

/-- `handle_chaining`: every slot of the working set, in the order given. -/
def handleChaining (l : Ledger) (fuel : Nat) : List Slot → ChainState →
    Option (Rust.Outcome Empty ChainState)
  | [], st => some (.ok st)
  | s :: rest, st =>
    match l.handleChainingForSlot fuel st s with
    | some (.ok st) => l.handleChaining fuel rest st
    | some (.err e) => nomatch e
    | some .panic => some .panic
    | none => none

/-- The write batch: the blobs inserted, the chained slots and the changed working-set metadata, and
the `Orphans` writes, the last write of a key winning. -/
def commit (l : Ledger) (prev : List (Slot × UInt64)) (st : ChainState) : Ledger :=
  { l with
    metaCf := fun s =>
      match st.ws.get? s with
      | some (m, backup) => if some m ≠ backup then some m else l.metaCf s
      | none => (st.chained.get? s).or (l.metaCf s)
    data := l.data ++ prev
    orphans := fun s => ((st.orphanOps.reverse.find? (·.1 = s)).map (·.2)).getD (l.orphans s) }

/-- `insert_data_blobs` for a batch of data blobs, with `iter` the iteration order of the working
set and at most `fuel` iterations of each traversal. -/
def insertDataBlobs (iter : List Slot → List Slot) (fuel : Nat) (l : Ledger) (blobs : List Blob) :
    Option (Rust.Outcome Empty Ledger) :=
  let batch := l.insertDataBlobBatch blobs
  (l.handleChaining fuel (iter batch.1.keys) ⟨batch.1, [], []⟩).map fun o =>
    l.commit batch.2 <$> o

/-! ## What chaining leaves alone

Chaining writes a slot's children and its connectedness, never its parent; and it never moves a
slot in or out of the working set.  So the parent of a working-set entry and the copy read from the
database are fixed from the batch on: `WorkingSet.origin` is what chaining preserves.
-/

end Ledger

/-- The parent of a slot's working-set entry, with the copy read from the database. -/
def WorkingSet.origin (ws : WorkingSet) (s : Slot) : Option (Slot × Option SlotMeta) :=
  (ws.get? s).map fun e => (e.1.parentSlot, e.2)

theorem WorkingSet.origin_set_of_ne (ws : WorkingSet) {a s : Slot} (h : s ≠ a)
    (e : SlotMeta × Option SlotMeta) : WorkingSet.origin (ws.set a e) s = ws.origin s := by
  simp [origin, AssocMap.get?_set_of_ne _ h]

@[simp] theorem WorkingSet.origin_set_self (ws : WorkingSet) (a : Slot)
    (e : SlotMeta × Option SlotMeta) :
    WorkingSet.origin (ws.set a e) a = some (e.1.parentSlot, e.2) := by
  simp [origin]

theorem WorkingSet.mem_keys_of_origin {ws : WorkingSet} {s : Slot} {o : Slot × Option SlotMeta}
    (h : ws.origin s = some o) : s ∈ ws.keys := by
  obtain ⟨e, he, -⟩ := Option.map_eq_some_iff.1 h
  exact AssocMap.mem_keys_of_get? he

namespace Ledger

variable (l : Ledger)

theorem ChainState.metaOf_parent {st : ChainState} {x p : Slot} {m : SlotMeta}
    {bk : Option SlotMeta} (hm : st.metaOf x = some m) (ho : st.ws.origin x = some (p, bk)) :
    m.parentSlot = p := by
  obtain ⟨⟨m₀, bk₀⟩, he, hp⟩ := Option.map_eq_some_iff.1 ho
  simp only [ChainState.metaOf, he, Option.some.injEq] at hm
  simp only [Prod.mk.injEq] at hp
  rw [← hm, hp.1]

/-- A write that keeps the parent of the cell keeps the origins. -/
theorem ChainState.origin_writeMeta {st : ChainState} {x : Slot} {m : SlotMeta}
    (h : ∀ p bk, st.ws.origin x = some (p, bk) → m.parentSlot = p) :
    (st.writeMeta x m).ws.origin = st.ws.origin := by
  funext s
  unfold ChainState.writeMeta
  cases hx : st.ws.get? x with
  | none => rfl
  | some e =>
    obtain ⟨m₀, bk⟩ := e
    have hp : m.parentSlot = m₀.parentSlot := h _ bk (by simp [WorkingSet.origin, hx])
    by_cases hs : s = x
    · subst hs
      simp [WorkingSet.origin, hx, hp]
    · exact WorkingSet.origin_set_of_ne _ hs _

@[simp] theorem ws_findSlotMetaElseCreate (st : ChainState) (x : Slot) :
    (l.findSlotMetaElseCreate st x).2.ws = st.ws := by
  unfold findSlotMetaElseCreate
  split <;> rfl

theorem findSlotMetaElseCreate_parent {st : ChainState} {x p : Slot} {bk : Option SlotMeta}
    (ho : st.ws.origin x = some (p, bk)) : (l.findSlotMetaElseCreate st x).1.parentSlot = p := by
  unfold findSlotMetaElseCreate
  split
  · exact ChainState.metaOf_parent (by assumption) ho
  · -- a slot of the working set always has a cell
    rename_i hnone
    obtain ⟨e, he, -⟩ := Option.map_eq_some_iff.1 ho
    simp [ChainState.metaOf, he] at hnone

theorem ws_foldl_findSlotMetaElseCreate (cs : List Slot) (st : ChainState) :
    (cs.foldl (fun st c => (l.findSlotMetaElseCreate st c).2) st).ws = st.ws := by
  induction cs generalizing st with
  | nil => rfl
  | cons c cs ih => rw [List.foldl_cons, ih, ws_findSlotMetaElseCreate]

/-- The traversal only marks slots connected. -/
theorem origin_traverseChildren : ∀ {fuel : Nat} {stack : List Slot} {st st₁ : ChainState},
    l.traverseChildren fuel stack st = some st₁ → st₁.ws.origin = st.ws.origin
  | _, [], st, st₁, h => by
    simp only [traverseChildren, Option.some.injEq] at h
    rw [h]
  | 0, _ :: _, _, _, h => by cases h
  | fuel + 1, s :: stack, st, st₁, h => by
    unfold traverseChildren at h
    cases hm : st.metaOf s with
    | none =>
      simp only [hm, Option.some.injEq] at h
      rw [h]
    | some m =>
      have hw : (st.writeMeta s { m with isConnected := true }).ws.origin = st.ws.origin :=
        ChainState.origin_writeMeta fun p _ ho =>
          (ChainState.metaOf_parent hm ho : m.parentSlot = p)
      simp only [hm] at h
      split_ifs at h
      · rw [origin_traverseChildren h, ws_foldl_findSlotMetaElseCreate, hw]
      · rw [origin_traverseChildren h, hw]

theorem origin_chainToParent {st st₁ : ChainState} {x : Slot} {m m₁ : SlotMeta}
    (h : l.chainToParent st x m = .ok (m₁, st₁)) :
    st₁.ws.origin = st.ws.origin ∧ m₁.parentSlot = m.parentSlot := by
  simp only [chainToParent] at h
  by_cases hself : m.parentSlot = x
  · simp [hself] at h
  rw [if_neg hself] at h
  set found := l.findSlotMetaElseCreate st m.parentSlot
  -- the parent's cell is written back with one more child
  have hw : (found.2.writeMeta m.parentSlot
      (found.1.chainNewSlotToPrevSlot x m).1).ws.origin = st.ws.origin := by
    rw [ChainState.origin_writeMeta, ws_findSlotMetaElseCreate]
    intro p bk ho
    rw [ws_findSlotMetaElseCreate] at ho
    exact findSlotMetaElseCreate_parent l ho
  simp only [Rust.Outcome.ok.injEq, Prod.mk.injEq] at h
  obtain ⟨rfl, rfl⟩ := h
  exact ⟨hw, rfl⟩

theorem origin_chainSlot {st st₁ : ChainState} {x : Slot} {m m₁ : SlotMeta}
    {bk : Option SlotMeta} (h : l.chainSlot st x m bk = .ok (m₁, st₁)) :
    st₁.ws.origin = st.ws.origin ∧ m₁.parentSlot = m.parentSlot := by
  unfold chainSlot at h
  split_ifs at h
  · exact l.origin_chainToParent h
  · cases h
    exact ⟨rfl, rfl⟩

/-- The chaining of one slot keeps the origins of the working set. -/
theorem origin_handleChainingForSlot {fuel : Nat} {st st₁ : ChainState} {x : Slot}
    (h : l.handleChainingForSlot fuel st x = some (.ok st₁)) :
    st₁.ws.origin = st.ws.origin := by
  unfold handleChainingForSlot at h
  cases hx : st.ws.get? x with
  | none => simp [hx] at h
  | some e =>
    obtain ⟨m, bk⟩ := e
    simp only [hx] at h
    cases hc : l.chainSlot st x m bk with
    | err e => cases e
    | panic => simp [hc] at h
    | ok r =>
      obtain ⟨m₁, st₂⟩ := r
      obtain ⟨ho, hp⟩ := l.origin_chainSlot hc
      -- the slot's own cell is written back with its parent unchanged
      have hw : (st₂.writeMeta x m₁).ws.origin = st.ws.origin := by
        rw [ChainState.origin_writeMeta, ho]
        intro p bk' hx'
        rw [ho] at hx'
        simp only [WorkingSet.origin, hx, Option.map_some, Option.some.injEq,
          Prod.mk.injEq] at hx'
        rw [hp, hx'.1]
      simp only [hc] at h
      by_cases hprop : (m₁.isNewlyCompleted bk && m₁.isConnected) = true
      · rw [if_pos hprop] at h
        obtain ⟨st₃, h₃, hst⟩ := Option.map_eq_some_iff.1 h
        cases hst
        rw [l.origin_traverseChildren h₃]
        exact hw
      · rw [if_neg hprop] at h
        cases h
        exact hw

/-! ## A slot that is its own parent -/

section SelfParent

variable {l} {fuel : Nat} {s : Slot} {bk : Option SlotMeta}

theorem chainSlot_self_parent {st : ChainState} {m : SlotMeta} (h0 : s ≠ 0)
    (hbk : (bk.isNone || bk.any SlotMeta.isOrphan) = true) (hself : m.parentSlot = s) :
    l.chainSlot st s m bk = .panic := by
  simp [chainSlot, chainToParent, h0, hbk, hself]

/-- A new or orphan slot other than genesis whose parent is itself panics when it is chained: the
parent's cell is the cell `meta_mut` already borrows. -/
theorem handleChainingForSlot_self_parent {st : ChainState} (h0 : s ≠ 0)
    (hbk : (bk.isNone || bk.any SlotMeta.isOrphan) = true) (ho : st.ws.origin s = some (s, bk)) :
    l.handleChainingForSlot fuel st s = some .panic := by
  obtain ⟨⟨m, bk₀⟩, he, hp⟩ := Option.map_eq_some_iff.1 ho
  simp only [Prod.mk.injEq] at hp
  obtain ⟨hself, rfl⟩ := hp
  simp [handleChainingForSlot, he, chainSlot_self_parent h0 hbk hself]

/-- Once such a slot is in the working set, chaining never returns normally: it panics when it
reaches the slot, unless a traversal before it has not ended. -/
theorem handleChaining_self_parent (h0 : s ≠ 0)
    (hbk : (bk.isNone || bk.any SlotMeta.isOrphan) = true) :
    ∀ {order : List Slot} {st : ChainState}, s ∈ order → st.ws.origin s = some (s, bk) →
      ∀ st₁, l.handleChaining fuel order st ≠ some (.ok st₁)
  | x :: rest, st, hmem, ho, st₁ => by
    by_cases hx : x = s
    · subst hx
      simp [handleChaining, handleChainingForSlot_self_parent h0 hbk ho]
    · have hrest : s ∈ rest := (List.mem_cons.1 hmem).resolve_left (Ne.symm hx)
      unfold handleChaining
      cases hc : l.handleChainingForSlot fuel st x with
      | none => simp
      | some o =>
        cases o with
        | ok st₂ =>
          exact handleChaining_self_parent h0 hbk hrest
            ((l.origin_handleChainingForSlot hc).symm ▸ ho) st₁
        | err e => cases e
        | panic => simp

end SelfParent

/-! ## The batch -/

@[simp] theorem parentSlot_insertDataBlob (prev : List (Slot × UInt64)) (m : SlotMeta)
    (blob : Blob) : (l.insertDataBlob prev m blob).parentSlot = m.parentSlot := rfl

theorem origin_checkInsertDataBlob_of_ne (st : WorkingSet × List (Slot × UInt64)) {blob : Blob}
    {s : Slot} (h : s ≠ blob.slot) :
    (l.checkInsertDataBlob st blob).1.origin s = st.1.origin s := by
  simp only [checkInsertDataBlob]
  split_ifs <;> exact WorkingSet.origin_set_of_ne _ h _

/-- A slot already in the working set keeps its entry's parent and database copy. -/
theorem origin_checkInsertDataBlob_of_origin {st : WorkingSet × List (Slot × UInt64)} {s : Slot}
    {o : Slot × Option SlotMeta} (h : st.1.origin s = some o) (blob : Blob) :
    (l.checkInsertDataBlob st blob).1.origin s = some o := by
  by_cases hs : s = blob.slot
  · subst hs
    obtain ⟨e, he, rfl⟩ := Option.map_eq_some_iff.1 h
    have hentry : l.slotEntry st.1 blob = e := by simp [slotEntry, he]
    simp only [checkInsertDataBlob, hentry]
    split_ifs <;> simp
  · rw [l.origin_checkInsertDataBlob_of_ne st hs, h]

/-- The first blob of a slot new to the working set, with no metadata or an orphan's in the
database, sets the entry's parent. -/
theorem origin_checkInsertDataBlob_of_new {st : WorkingSet × List (Slot × UInt64)} {blob : Blob}
    (hnone : st.1.origin blob.slot = none) (horphan : (l.metaCf blob.slot).all SlotMeta.isOrphan) :
    (l.checkInsertDataBlob st blob).1.origin blob.slot =
      some (blob.parent, l.metaCf blob.slot) := by
  have hws : st.1.get? blob.slot = none := Option.map_eq_none_iff.1 hnone
  have hentry : (l.slotEntry st.1 blob).1.parentSlot = blob.parent ∧
      (l.slotEntry st.1 blob).2 = l.metaCf blob.slot := by
    unfold slotEntry
    cases hm : l.metaCf blob.slot with
    | none => simp [hws, SlotMeta.new]
    | some m =>
      rw [hm] at horphan
      simp_all
  simp only [checkInsertDataBlob]
  split_ifs <;> simp [hentry.1, hentry.2]

theorem origin_foldl_checkInsertDataBlob_of_origin {s : Slot} {o : Slot × Option SlotMeta}
    (blobs : List Blob) {st : WorkingSet × List (Slot × UInt64)} (h : st.1.origin s = some o) :
    (blobs.foldl l.checkInsertDataBlob st).1.origin s = some o := by
  induction blobs generalizing st with
  | nil => exact h
  | cons b blobs ih => exact ih (l.origin_checkInsertDataBlob_of_origin h b)

/-- After the batch, a slot's entry has the parent of the slot's first blob, when the slot had no
metadata or an orphan's. -/
theorem origin_insertDataBlobBatch {blobs : List Blob} {b : Blob}
    (hfirst : blobs.find? (·.slot = b.slot) = some b)
    (horphan : (l.metaCf b.slot).all SlotMeta.isOrphan) :
    (l.insertDataBlobBatch blobs).1.origin b.slot = some (b.parent, l.metaCf b.slot) := by
  unfold insertDataBlobBatch
  -- the slot is absent from the working set until its first blob
  suffices ∀ (st : WorkingSet × List (Slot × UInt64)), st.1.origin b.slot = none →
      (blobs.foldl l.checkInsertDataBlob st).1.origin b.slot = some (b.parent, l.metaCf b.slot) from
    this _ rfl
  induction blobs with
  | nil => cases hfirst
  | cons x blobs ih =>
    intro st hnone
    by_cases hx : x.slot = b.slot
    · have hxb : x = b := by simpa [List.find?_cons, hx] using hfirst
      subst hxb
      exact l.origin_foldl_checkInsertDataBlob_of_origin blobs
        (l.origin_checkInsertDataBlob_of_new hnone horphan)
    · have hrest : blobs.find? (·.slot = b.slot) = some b := by
        simpa [List.find?_cons, hx] using hfirst
      exact ih hrest _ (by rw [l.origin_checkInsertDataBlob_of_ne st (Ne.symm hx), hnone])

/-- `insert_data_blobs` never returns normally on a batch whose first blob of some slot other than
genesis names that slot as its parent, when the ledger has no metadata for the slot or only an
orphan's: whatever the order the working set is visited in, chaining panics at that slot, unless a
traversal before it runs on without end. -/
theorem insertDataBlobs_self_parent (iter : List Slot → List Slot)
    (hiter : ∀ ks, (iter ks).Perm ks) (fuel : Nat) (blobs : List Blob) (b : Blob)
    (hfirst : blobs.find? (·.slot = b.slot) = some b) (h0 : b.slot ≠ 0)
    (hself : b.parent = b.slot) (horphan : (l.metaCf b.slot).all SlotMeta.isOrphan) :
    l.insertDataBlobs iter fuel blobs = none ∨
      l.insertDataBlobs iter fuel blobs = some .panic := by
  have ho := l.origin_insertDataBlobBatch hfirst horphan
  rw [hself] at ho
  have hbk : ((l.metaCf b.slot).isNone || (l.metaCf b.slot).any SlotMeta.isOrphan) = true := by
    cases hm : l.metaCf b.slot <;> simp_all
  have hmem : b.slot ∈ iter (l.insertDataBlobBatch blobs).1.keys :=
    (hiter _).mem_iff.2 (WorkingSet.mem_keys_of_origin ho)
  cases hc : l.handleChaining fuel (iter (l.insertDataBlobBatch blobs).1.keys)
      ⟨(l.insertDataBlobBatch blobs).1, [], []⟩ with
  | none =>
    left
    simp [insertDataBlobs, hc]
  | some o =>
    cases o with
    | ok st₁ => exact absurd hc (handleChaining_self_parent h0 hbk hmem ho st₁)
    | err e => cases e
    | panic =>
      right
      simp [insertDataBlobs, hc]

/-- One blob of slot 1 naming slot 1 as its parent, into a ledger without metadata. -/
theorem insertDataBlobs_self_parent_slot_one :
    let l : Ledger := ⟨⟨fun _ => none, fun _ => false⟩, [], fun _ => false⟩
    l.insertDataBlobs id 0 [⟨1, 0, 1, true⟩] = none ∨
      l.insertDataBlobs id 0 [⟨1, 0, 1, true⟩] = some .panic :=
  insertDataBlobs_self_parent _ id (fun _ => List.Perm.refl _) 0 [⟨1, 0, 1, true⟩]
    ⟨1, 0, 1, true⟩ (by decide) (by decide) rfl rfl

/-! ## A batch of one blob -/

theorem keys_insertDataBlobBatch_singleton (b : Blob) :
    (l.insertDataBlobBatch [b]).1.keys = [b.slot] := by
  unfold insertDataBlobBatch checkInsertDataBlob
  dsimp only [List.foldl_cons, List.foldl_nil]
  split <;> rfl

/-- One blob whose parent is its own slot, other than genesis, into a ledger with no metadata for
the slot or an orphan's: the working set holds that slot alone, so in every order it is chained
first, and `insert_data_blobs` panics, whatever the bound on traversals. -/
theorem insert_data_blobs_panics_on_self_parent (iter : List Slot → List Slot)
    (hiter : ∀ ks, (iter ks).Perm ks) (fuel : Nat) (b : Blob) (h0 : b.slot ≠ 0)
    (hself : b.parent = b.slot) (horphan : (l.metaCf b.slot).all SlotMeta.isOrphan) :
    l.insertDataBlobs iter fuel [b] = some .panic := by
  have hfirst : [b].find? (·.slot = b.slot) = some b := by simp
  have ho := l.origin_insertDataBlobBatch hfirst horphan
  rw [hself] at ho
  have hbk : ((l.metaCf b.slot).isNone || (l.metaCf b.slot).any SlotMeta.isOrphan) = true := by
    cases hm : l.metaCf b.slot <;> simp_all
  -- the only order of one slot
  have horder : iter (l.insertDataBlobBatch [b]).1.keys = [b.slot] := by
    rw [l.keys_insertDataBlobBatch_singleton b]
    exact List.perm_singleton.1 (hiter _)
  have hslot : l.handleChainingForSlot fuel ⟨(l.insertDataBlobBatch [b]).1, [], []⟩ b.slot =
      some .panic := handleChainingForSlot_self_parent h0 hbk ho
  simp [insertDataBlobs, horder, handleChaining, hslot]

theorem insert_data_blobs_panics_on_self_parent_slot_two :
    let l : Ledger := ⟨⟨fun _ => none, fun _ => false⟩, [], fun _ => false⟩
    l.insertDataBlobs id 16 [⟨2, 5, 2, false⟩] = some .panic :=
  insert_data_blobs_panics_on_self_parent _ id (fun _ => List.Perm.refl _) 16 ⟨2, 5, 2, false⟩
    (by decide) rfl rfl

/-! ## The `Data` column holds each blob once -/

theorem not_mem_of_shouldInsertBlob {prev : List (Slot × UInt64)} {m : SlotMeta} {blob : Blob}
    (h : l.shouldInsertBlob prev m blob = true) :
    (blob.slot, blob.index) ∉ prev ∧ (blob.slot, blob.index) ∉ l.data := by
  unfold shouldInsertBlob at h
  by_cases hc : (blob.index < m.consumed || prev.contains (blob.slot, blob.index) ||
      l.data.contains (blob.slot, blob.index)) = true
  · rw [if_pos hc] at h
    cases h
  · simp only [Bool.or_eq_true, List.contains_iff_mem, not_or] at hc
    exact ⟨hc.1.2, hc.2⟩

theorem nodup_checkInsertDataBlob {st : WorkingSet × List (Slot × UInt64)}
    (h : (st.2 ++ l.data).Nodup) (blob : Blob) :
    ((l.checkInsertDataBlob st blob).2 ++ l.data).Nodup := by
  simp only [checkInsertDataBlob]
  split_ifs with hins
  · obtain ⟨hprev, hdata⟩ := l.not_mem_of_shouldInsertBlob hins
    rw [List.append_assoc, List.singleton_append, List.nodup_middle]
    exact List.nodup_cons.2 ⟨by simp [hprev, hdata], h⟩
  · exact h

/-- A batch inserts only blobs the database does not hold, each once. -/
theorem nodup_insertDataBlobBatch (hd : l.data.Nodup) (blobs : List Blob) :
    ((l.insertDataBlobBatch blobs).2 ++ l.data).Nodup := by
  unfold insertDataBlobBatch
  suffices ∀ st : WorkingSet × List (Slot × UInt64), (st.2 ++ l.data).Nodup →
      ((blobs.foldl l.checkInsertDataBlob st).2 ++ l.data).Nodup from this _ hd
  induction blobs with
  | nil => exact fun _ h => h
  | cons b blobs ih => exact fun st h => ih _ (l.nodup_checkInsertDataBlob h b)

/-- The `Data` column holds each blob once, after every batch that returns. -/
theorem data_nodup_insertDataBlobs {iter : List Slot → List Slot} {fuel : Nat} {blobs : List Blob}
    {l₁ : Ledger} (hd : l.data.Nodup) (h : l.insertDataBlobs iter fuel blobs = some (.ok l₁)) :
    l₁.data.Nodup := by
  obtain ⟨o, -, hmap⟩ := Option.map_eq_some_iff.1 h
  cases o with
  | ok st =>
    cases hmap
    exact List.nodup_append_comm.1 (l.nodup_insertDataBlobBatch hd blobs)
  | err e => cases e
  | panic => cases hmap

end Ledger

end Morgan
