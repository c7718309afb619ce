import Mathlib
import Morgan.Core.Entry
import Morgan.Lib.Machine

/-!
# The proof-of-history recorder

`waterClockRecorder.rs`: `PohRecorder` drives a `Poh` generator for the leader.  Every tick of the
generator raises the tick height; while the recorder expects to lead (`start_leader_at_tick`), the
tick goes into a cache, and `flush_cache` hands the cached ticks up to the working bank's
`max_tick_height` to the bank: each is registered on it and they are sent together down the
channel to the ledger.  `record` mixes a hash into the generator and sends the entry, with its
transactions, to the working bank; it first flushes the cache, and fails when the working bank is
gone, is another bank, or has not reached its `min_tick_height`.  Reaching `max_tick_height`
drops the working bank.  `reset` puts the generator on a new bank's last hash and clears the
cache; `set_bank` installs a working bank.

The banks are known by their slot, ticks per slot and tick height.  The leader schedule enters as
`nextLeaderSlot`, the slot `next_leader_slot` finds after a bank's slot; the channel's receiver
may be dropped at any time (`RecorderOp.disconnect`), after which every send fails.  Tick heights
are `u64`s that stay below `u64::MAX`; `set_bank` computes a bank's last tick in `u64` as the
release build does, so that a bank without ticks per slot ends at `u64::MAX`, and the division by
its ticks per slot in `flush_cache`, made only at that height, never runs.  `none` is a panic.
-/

namespace Morgan

/-- `MAX_LAST_LEADER_GRACE_TICKS_FACTOR`. -/
def MAX_LAST_LEADER_GRACE_TICKS_FACTOR : Nat := 2

/-- `PohRecorderError`. -/
inductive PohRecorderError where
  | invalidCallingObject
  | maxHeightReached
  | minHeightNotReached
  deriving DecidableEq, Repr

/-- The errors of `record`: the recorder's own, and the channel's once its receiver is gone. -/
inductive RecordError where
  | pohRecorder (e : PohRecorderError)
  | send
  deriving DecidableEq, Repr

/-- `WorkingBank`: the bank, by its slot and ticks per slot, and the tick heights it takes. -/
structure WorkingBank where
  slot : Slot
  ticksPerSlot : Nat
  minTickHeight : Nat
  maxTickHeight : Nat
  deriving DecidableEq, Repr

/-- What the recorder does outside itself: `register_tick` of a tick's hash on a bank, and a send
of entries with their tick heights to a working bank's bank. -/
inductive RecorderEffect where
  | registerTick (slot : Slot) (hash : Hash)
  | send (workingBank : WorkingBank) (entries : List (Entry × Nat))

/-- `PohRecorder`, with `hashes_per_tick` of its `PohConfig`; `connected` says that the receiver of
its channel is still there. -/
structure PohRecorder where
  poh : Poh
  tickHeight : Nat
  startSlot : Slot
  startTick : Nat
  tickCache : List (Entry × Nat)
  workingBank : Option WorkingBank
  startLeaderAtTick : Option Nat
  lastLeaderTick : Option Nat
  maxLastLeaderGraceTicks : Nat
  ticksPerSlot : Nat
  hashesPerTick : Option Nat
  connected : Bool

namespace PohRecorder

/-- `compute_leader_slot_ticks`: the tick a leader slot starts at, after the grace ticks, and its
last tick. -/
def computeLeaderSlotTicks (nextLeaderSlot : Option Slot) (ticksPerSlot graceTicks : Nat) :
    Option Nat × Option Nat :=
  match nextLeaderSlot with
  | some slot =>
    (some (slot.toNat * ticksPerSlot + graceTicks), some ((slot.toNat + 1) * ticksPerSlot - 1))
  | none => (none, none)

/-- `new`: no working bank and an empty cache; `none` is the panic of `Poh::new`. -/
def new (tickHeight : Nat) (lastEntryHash : Hash) (startSlot : Slot)
    (myLeaderSlotIndex : Option Slot) (ticksPerSlot : Nat) (hashesPerTick : Option Nat) :
    Option PohRecorder := do
  let poh ← Poh.new lastEntryHash hashesPerTick
  let maxLastLeaderGraceTicks := ticksPerSlot / MAX_LAST_LEADER_GRACE_TICKS_FACTOR
  let (startLeaderAtTick, lastLeaderTick) :=
    computeLeaderSlotTicks myLeaderSlotIndex ticksPerSlot maxLastLeaderGraceTicks
  pure
    { poh := poh, tickHeight := tickHeight, startSlot := startSlot,
      startTick := tickHeight + 1, tickCache := [], workingBank := none,
      startLeaderAtTick := startLeaderAtTick, lastLeaderTick := lastLeaderTick,
      maxLastLeaderGraceTicks := maxLastLeaderGraceTicks, ticksPerSlot := ticksPerSlot,
      hashesPerTick := hashesPerTick, connected := true }

section Steps

variable (nextLeaderSlot : Slot → Option Slot)

/-- `clear_bank`: the working bank dropped, and the ticks of the next leader slot after its
bank. -/
def clearBank (r : PohRecorder) : PohRecorder :=
  match r.workingBank with
  | some wb =>
    let (startLeaderAtTick, lastLeaderTick) :=
      computeLeaderSlotTicks (nextLeaderSlot wb.slot) wb.ticksPerSlot r.maxLastLeaderGraceTicks
    { r with
      workingBank := none, startLeaderAtTick := startLeaderAtTick,
      lastLeaderTick := lastLeaderTick }
  | none => r

/-- `would_be_leader`. -/
def wouldBeLeader (r : PohRecorder) (withinNextNTicks : Nat) : Bool :=
  let closeToLeaderTick := match r.startLeaderAtTick with
    | some leaderTick =>
      let idealStartTick := leaderTick - r.maxLastLeaderGraceTicks
      decide (r.tickHeight ≤ r.lastLeaderTick.getD 0 ∧
        r.tickHeight ≥ idealStartTick - withinNextNTicks)
    | none => false
  r.workingBank.isSome || closeToLeaderTick

/-- `reached_leader_tick`: whether the leader tick is reached, and the grace ticks afforded. -/
def reachedLeaderTick (r : PohRecorder) : Bool × Nat :=
  match r.startLeaderAtTick with
  | some targetTick =>
    let idealStartTick := targetTick - r.maxLastLeaderGraceTicks
    if r.tickHeight ≤ r.lastLeaderTick.getD 0 ∧
        (r.tickHeight ≥ targetTick ∨ r.maxLastLeaderGraceTicks ≥ targetTick - r.startTick) then
      (true, r.tickHeight - idealStartTick)
    else (false, 0)
  | none => (false, 0)

/-- `reset`: the generator on a bank's last hash, an empty cache, and the leader ticks of the
recorder's next leader slot. -/
def reset (r : PohRecorder) (tickHeight : Nat) (blockhash : Hash) (startSlot : Slot)
    (myNextLeaderSlot : Option Slot) (ticksPerSlot : Nat) : Option PohRecorder := do
  let r := clearBank nextLeaderSlot r
  let poh ← r.poh.reset blockhash r.hashesPerTick
  let maxLastLeaderGraceTicks := ticksPerSlot / MAX_LAST_LEADER_GRACE_TICKS_FACTOR
  let (startLeaderAtTick, lastLeaderTick) :=
    computeLeaderSlotTicks myNextLeaderSlot ticksPerSlot maxLastLeaderGraceTicks
  pure
    { r with
      poh := poh, tickCache := [], startSlot := startSlot, startTick := tickHeight + 1,
      tickHeight := tickHeight, maxLastLeaderGraceTicks := maxLastLeaderGraceTicks,
      startLeaderAtTick := startLeaderAtTick, lastLeaderTick := lastLeaderTick,
      ticksPerSlot := ticksPerSlot }

/-- `set_bank`: a working bank from the bank's tick height to the last tick of its slot. -/
def setBank (r : PohRecorder) (slot : Slot) (ticksPerSlot bankTickHeight : Nat) : PohRecorder :=
  let maxTickHeight := ((slot + 1) * UInt64.ofNat ticksPerSlot - 1).toNat
  { r with
    ticksPerSlot := ticksPerSlot,
    workingBank := some ⟨slot, ticksPerSlot, bankTickHeight, maxTickHeight⟩ }

/-- The end of `flush_cache` at the working bank's `max_tick_height`: the start slot and tick move
past the bank's slot, and the bank is dropped. -/
def reachMaxTickHeight (wb : WorkingBank) (r : PohRecorder) : PohRecorder :=
  if r.tickHeight ≥ wb.maxTickHeight then
    let startSlot := wb.maxTickHeight / wb.ticksPerSlot
    clearBank nextLeaderSlot
      { r with
        startSlot := UInt64.ofNat startSlot,
        startTick := (startSlot + 1) * wb.ticksPerSlot }
  else r

/-- The last step of `flush_cache`: the flushed ticks leave the cache when the send went through;
otherwise the cache stays and the working bank is dropped. -/
def commitFlush (sendOk : Bool) (entryCount : Nat) (r : PohRecorder) : PohRecorder :=
  if sendOk then { r with tickCache := r.tickCache.drop entryCount }
  else clearBank nextLeaderSlot r

/-- `flush_cache`: unless the working bank is missing or short of its `min_tick_height` (for a tick,
one past it), the cached ticks up to its `max_tick_height` are registered on the bank and sent. -/
def flushCache (r : PohRecorder) (tick : Bool) :
    PohRecorder × List RecorderEffect × Except PohRecorderError Unit :=
  match r.workingBank with
  | none => (r, [], .error .maxHeightReached)
  | some wb =>
    if r.tickHeight < wb.minTickHeight then (r, [], .error .minHeightNotReached)
    else if tick ∧ r.tickHeight = wb.minTickHeight then (r, [], .error .minHeightNotReached)
    else
      let entryCount := (r.tickCache.takeWhile (·.2 ≤ wb.maxTickHeight)).length
      let cache := r.tickCache.take entryCount
      let sendOk := entryCount = 0 ∨ r.connected
      let effects := cache.map (fun t => RecorderEffect.registerTick wb.slot t.1.hash) ++
        if 0 < entryCount ∧ r.connected then [.send wb cache] else []
      let r := reachMaxTickHeight nextLeaderSlot wb r
      (commitFlush nextLeaderSlot sendOk entryCount r, effects, .ok ())

/-- `tick`: a tick of the generator raises the tick height and, while a leader slot is expected,
is cached and flushed. -/
def tick (r : PohRecorder) : PohRecorder × List RecorderEffect :=
  match r.poh.tick with
  | (poh, none) => ({ r with poh := poh }, [])
  | (poh, some pohEntry) =>
    let r := { r with poh := poh, tickHeight := r.tickHeight + 1 }
    if r.startLeaderAtTick.isNone then (r, [])
    else
      let entry : Entry := ⟨UInt64.ofNat pohEntry.numHashes, pohEntry.hash, []⟩
      let r := { r with tickCache := r.tickCache ++ [(entry, r.tickHeight)] }
      let (r, effects, _) := flushCache nextLeaderSlot r true
      (r, effects)

/-- A turn of `record`'s loop: flush the cache, check the working bank, and record the mixin; the
turn's result, or, when the generator's next hash must be a tick, the recorder after that tick and
the effects so far, for another turn. -/
def recordTurn (bankSlot : Slot) (mixin : Hash) (transactions : List Transaction)
    (r : PohRecorder) :
    (PohRecorder × List RecorderEffect × Except RecordError Unit) ⊕
      (PohRecorder × List RecorderEffect) :=
  let (r, flushed, result) := flushCache nextLeaderSlot r false
  match result, r.workingBank with
  | .error e, _ => .inl (r, flushed, .error (.pohRecorder e))
  | .ok (), none => .inl (r, flushed, .error (.pohRecorder .maxHeightReached))
  | .ok (), some wb =>
    if bankSlot ≠ wb.slot then .inl (r, flushed, .error (.pohRecorder .maxHeightReached))
    else
      match r.poh.record mixin with
      | (poh, some pohEntry) =>
        let entry : Entry := ⟨UInt64.ofNat pohEntry.numHashes, pohEntry.hash, transactions⟩
        if r.connected then
          .inl ({ r with poh := poh }, flushed ++ [.send wb [(entry, r.tickHeight)]], .ok ())
        else .inl ({ r with poh := poh }, flushed, .error .send)
      | (poh, none) =>
        let (r, ticked) := tick nextLeaderSlot { r with poh := poh }
        .inr (r, flushed ++ ticked)

/-- The loop of `record`, for at most `fuel` turns. -/
def recordLoop (bankSlot : Slot) (mixin : Hash) (transactions : List Transaction) :
    Nat → PohRecorder → Option (PohRecorder × List RecorderEffect × Except RecordError Unit)
  | 0, _ => none
  | fuel + 1, r =>
    match recordTurn nextLeaderSlot bankSlot mixin transactions r with
    | .inl out => some out
    | .inr (r, effects) =>
      (recordLoop bankSlot mixin transactions fuel r).map fun (r, more, result) =>
        (r, effects ++ more, result)

theorem recordLoop_succ (bankSlot : Slot) (mixin : Hash) (transactions : List Transaction)
    (fuel : Nat) (r : PohRecorder) :
    recordLoop nextLeaderSlot bankSlot mixin transactions (fuel + 1) r =
      match recordTurn nextLeaderSlot bankSlot mixin transactions r with
      | .inl out => some out
      | .inr (r, effects) =>
        (recordLoop nextLeaderSlot bankSlot mixin transactions fuel r).map
          fun (r, more, result) => (r, effects ++ more, result) := rfl

/-- `record`: panics without transactions; the loop takes at most two turns, the second after a
tick has made room for the record. -/
def record (r : PohRecorder) (bankSlot : Slot) (mixin : Hash) (transactions : List Transaction) :
    Option (PohRecorder × List RecorderEffect × Except RecordError Unit) :=
  if transactions.isEmpty then none
  else recordLoop nextLeaderSlot bankSlot mixin transactions 2 r

end Steps

end PohRecorder

/-- A call on the recorder, or the channel's receiver going away. -/
inductive RecorderOp where
  | tick
  | record (bankSlot : Slot) (mixin : Hash) (transactions : List Transaction)
  | reset (tickHeight : Nat) (blockhash : Hash) (startSlot : Slot) (myNextLeaderSlot : Option Slot)
      (ticksPerSlot : Nat)
  | setBank (slot : Slot) (ticksPerSlot bankTickHeight : Nat)
  | disconnect

/-- One call, with its effects; `none` is a panic. -/
def PohRecorder.step (nextLeaderSlot : Slot → Option Slot) (r : PohRecorder) :
    RecorderOp → Option (PohRecorder × List RecorderEffect)
  | .tick => some (r.tick nextLeaderSlot)
  | .record bankSlot mixin transactions =>
    (r.record nextLeaderSlot bankSlot mixin transactions).map fun (r, effects, _) => (r, effects)
  | .reset tickHeight blockhash startSlot myNextLeaderSlot ticksPerSlot =>
    (r.reset nextLeaderSlot tickHeight blockhash startSlot myNextLeaderSlot ticksPerSlot).map
      fun r => (r, [])
  | .setBank slot ticksPerSlot bankTickHeight =>
    some (r.setBank slot ticksPerSlot bankTickHeight, [])
  | .disconnect => some ({ r with connected := false }, [])

theorem PohRecorder.step_tick (nextLeaderSlot : Slot → Option Slot) (r : PohRecorder) :
    r.step nextLeaderSlot .tick = some (r.tick nextLeaderSlot) := rfl

theorem PohRecorder.step_record (nextLeaderSlot : Slot → Option Slot) (r : PohRecorder)
    (bankSlot : Slot) (mixin : Hash) (transactions : List Transaction) :
    r.step nextLeaderSlot (.record bankSlot mixin transactions) =
      (r.record nextLeaderSlot bankSlot mixin transactions).map fun (r, effects, _) => (r, effects) :=
  rfl

theorem PohRecorder.step_reset (nextLeaderSlot : Slot → Option Slot) (r : PohRecorder)
    (tickHeight : Nat) (blockhash : Hash) (startSlot : Slot) (myNextLeaderSlot : Option Slot)
    (ticksPerSlot : Nat) :
    r.step nextLeaderSlot (.reset tickHeight blockhash startSlot myNextLeaderSlot ticksPerSlot) =
      (r.reset nextLeaderSlot tickHeight blockhash startSlot myNextLeaderSlot ticksPerSlot).map
        fun r => (r, []) := rfl

end Morgan
