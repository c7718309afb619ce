import Mathlib
import Morgan.Core.WaterClockRecorder
import Morgan.Core.WaterClockProof

/-!
# What the recorder sends

`PohRecorder` over any sequence of calls (`Machine.run` of `PohRecorder.step`).  Whatever the calls,
a send keeps to the working bank it goes to: ticks up to its `max_tick_height`, entries with
transactions from its `min_tick_height` to below its `max_tick_height`, as the head of
`waterClockRecorder.rs` asks (`sent_within_working_bank`).  Between resets, what is sent is in the
order of proof of history: tick heights never go down and every tick is above all that went before
it, so that no tick is sent twice (`sent_in_poh_order`).  The loop of `record` ends within two
turns (`record_within_two_turns`), and a recorder that `new` makes takes every call but a `record`
without transactions (`recorder_never_panics`).

Each result is an invariant that every call keeps, proved from what one flush, one tick and one
turn of `record` can do (`flushCache_sent_append`, `tick_cases`, `recordTurn_cases`).
-/

namespace Morgan

private theorem take_length_takeWhile {α : Type} (p : α → Bool) (l : List α) :
    l.take (l.takeWhile p).length = l.takeWhile p :=
  (List.prefix_iff_eq_take.1 (List.takeWhile_prefix p)).symm

private theorem drop_length_takeWhile {α : Type} (p : α → Bool) (l : List α) :
    l.drop (l.takeWhile p).length = l.dropWhile p := by
  have hsplit := @List.drop_left' _ (l.takeWhile p) (l.dropWhile p) _ rfl
  rwa [List.takeWhile_append_dropWhile] at hsplit

/-- The entries an effect sends down the channel. -/
def RecorderEffect.sent : RecorderEffect → List (Entry × Nat)
  | .registerTick _ _ => []
  | .send _ entries => entries

@[simp] theorem RecorderEffect.sent_registerTick (slot : Slot) (hash : Hash) :
    (RecorderEffect.registerTick slot hash).sent = [] := rfl

@[simp] theorem RecorderEffect.sent_send (wb : WorkingBank) (entries : List (Entry × Nat)) :
    (RecorderEffect.send wb entries).sent = entries := rfl

/-- An effect keeps to the working bank it sends to: ticks at most at its `max_tick_height`, entries
with transactions from its `min_tick_height` to below its `max_tick_height`. -/
def RecorderEffect.WithinBank : RecorderEffect → Prop
  | .registerTick _ _ => True
  | .send wb entries => ∀ e ∈ entries,
    (e.1.transactions = [] → e.2 ≤ wb.maxTickHeight) ∧
    (e.1.transactions ≠ [] → wb.minTickHeight ≤ e.2 ∧ e.2 < wb.maxTickHeight)

/-- The order of proof of history: tick heights never go down, and a tick is above everything
before it. -/
def InPohOrder (entries : List (Entry × Nat)) : Prop :=
  entries.Pairwise fun a b => a.2 ≤ b.2 ∧ (b.1.transactions = [] → a.2 < b.2)

@[simp] theorem RecorderEffect.flatMap_sent_registerTick (slot : Slot) (l : List (Entry × Nat)) :
    (l.map fun t => RecorderEffect.registerTick slot t.1.hash).flatMap RecorderEffect.sent =
      [] := by
  rw [List.flatMap_eq_nil_iff]
  intro x hx
  obtain ⟨t, -, rfl⟩ := List.mem_map.1 hx
  rfl

/-- A `record` without transactions, which the assertion of `record` refuses. -/
def RecorderOp.recordsNothing : RecorderOp → Bool
  | .record _ _ transactions => transactions.isEmpty
  | _ => false

/-- Whether a call is a `reset`. -/
def RecorderOp.isReset : RecorderOp → Bool
  | .reset .. => true
  | _ => false

theorem Poh.hashesPerTick_of_new {hash : Hash} {k : Option Nat} {poh : Poh}
    (h : Poh.new hash k = some poh) :
    poh.hashesPerTick = k.getD (2 ^ 64 - 1) ∧ 1 < k.getD (2 ^ 64 - 1) := by
  unfold Poh.new at h
  dsimp only at h
  split_ifs at h with hk
  cases h
  exact ⟨rfl, hk⟩

@[simp] theorem Poh.tick_hashesPerTick (poh : Poh) :
    poh.tick.1.hashesPerTick = poh.hashesPerTick := by
  unfold Poh.tick
  dsimp only
  split_ifs <;> rfl

@[simp] theorem Poh.record_hashesPerTick (poh : Poh) (mixin : Hash) :
    (poh.record mixin).1.hashesPerTick = poh.hashesPerTick := by
  unfold Poh.record
  split_ifs <;> rfl

theorem Poh.record_fst_of_none {poh : Poh} {mixin : Hash} (h : (poh.record mixin).2 = none) :
    (poh.record mixin).1 = poh := by
  unfold Poh.record at h ⊢
  split_ifs at h ⊢
  rfl

/-- A tick on the generator's last hash ends the tick and leaves the whole next tick's hashes. -/
theorem Poh.tick_remainingHashes_of_one {poh : Poh} (h : poh.remainingHashes = 1) :
    poh.tick.1.remainingHashes = poh.hashesPerTick := by
  unfold Poh.tick
  rw [if_neg (by omega)]

namespace PohRecorder

section Flush

variable (nextLeaderSlot : Slot → Option Slot) (r : PohRecorder)

/-- What `clear_bank` does: nothing without a working bank, and otherwise drop it and set the
leader ticks. -/
theorem clearBank_cases :
    clearBank nextLeaderSlot r = r ∧ r.workingBank = none ∨
      ∃ start last, clearBank nextLeaderSlot r =
        { r with workingBank := none, startLeaderAtTick := start, lastLeaderTick := last } := by
  unfold clearBank
  cases r.workingBank with
  | none => exact .inl ⟨rfl, rfl⟩
  | some wb => exact .inr ⟨_, _, rfl⟩

@[simp] theorem clearBank_tickCache : (clearBank nextLeaderSlot r).tickCache = r.tickCache := by
  rcases clearBank_cases nextLeaderSlot r with ⟨h, -⟩ | ⟨start, last, h⟩ <;> rw [h]

@[simp] theorem clearBank_tickHeight : (clearBank nextLeaderSlot r).tickHeight = r.tickHeight := by
  rcases clearBank_cases nextLeaderSlot r with ⟨h, -⟩ | ⟨start, last, h⟩ <;> rw [h]

@[simp] theorem clearBank_poh : (clearBank nextLeaderSlot r).poh = r.poh := by
  rcases clearBank_cases nextLeaderSlot r with ⟨h, -⟩ | ⟨start, last, h⟩ <;> rw [h]

@[simp] theorem clearBank_connected : (clearBank nextLeaderSlot r).connected = r.connected := by
  rcases clearBank_cases nextLeaderSlot r with ⟨h, -⟩ | ⟨start, last, h⟩ <;> rw [h]

@[simp] theorem clearBank_hashesPerTick :
    (clearBank nextLeaderSlot r).hashesPerTick = r.hashesPerTick := by
  rcases clearBank_cases nextLeaderSlot r with ⟨h, -⟩ | ⟨start, last, h⟩ <;> rw [h]

@[simp] theorem clearBank_workingBank : (clearBank nextLeaderSlot r).workingBank = none := by
  rcases clearBank_cases nextLeaderSlot r with ⟨h, hwb⟩ | ⟨start, last, h⟩
  · rw [h, hwb]
  · rw [h]

variable (wb : WorkingBank)

@[simp] theorem reachMaxTickHeight_tickCache :
    (reachMaxTickHeight nextLeaderSlot wb r).tickCache = r.tickCache := by
  unfold reachMaxTickHeight
  split_ifs <;> simp

@[simp] theorem reachMaxTickHeight_tickHeight :
    (reachMaxTickHeight nextLeaderSlot wb r).tickHeight = r.tickHeight := by
  unfold reachMaxTickHeight
  split_ifs <;> simp

@[simp] theorem reachMaxTickHeight_poh : (reachMaxTickHeight nextLeaderSlot wb r).poh = r.poh := by
  unfold reachMaxTickHeight
  split_ifs <;> simp

@[simp] theorem reachMaxTickHeight_connected :
    (reachMaxTickHeight nextLeaderSlot wb r).connected = r.connected := by
  unfold reachMaxTickHeight
  split_ifs <;> simp

@[simp] theorem reachMaxTickHeight_hashesPerTick :
    (reachMaxTickHeight nextLeaderSlot wb r).hashesPerTick = r.hashesPerTick := by
  unfold reachMaxTickHeight
  split_ifs <;> simp

theorem reachMaxTickHeight_workingBank (h : r.tickHeight < wb.maxTickHeight) :
    (reachMaxTickHeight nextLeaderSlot wb r).workingBank = r.workingBank := by
  unfold reachMaxTickHeight
  rw [if_neg (by omega)]

variable (sendOk : Bool) (entryCount : Nat)

@[simp] theorem commitFlush_tickHeight :
    (commitFlush nextLeaderSlot sendOk entryCount r).tickHeight = r.tickHeight := by
  unfold commitFlush
  split_ifs <;> simp

@[simp] theorem commitFlush_poh : (commitFlush nextLeaderSlot sendOk entryCount r).poh = r.poh := by
  unfold commitFlush
  split_ifs <;> simp

@[simp] theorem commitFlush_connected :
    (commitFlush nextLeaderSlot sendOk entryCount r).connected = r.connected := by
  unfold commitFlush
  split_ifs <;> simp

@[simp] theorem commitFlush_hashesPerTick :
    (commitFlush nextLeaderSlot sendOk entryCount r).hashesPerTick = r.hashesPerTick := by
  unfold commitFlush
  split_ifs <;> simp

theorem commitFlush_tickCache :
    (commitFlush nextLeaderSlot sendOk entryCount r).tickCache =
      if sendOk then r.tickCache.drop entryCount else r.tickCache := by
  unfold commitFlush
  split_ifs <;> simp

theorem commitFlush_workingBank :
    (commitFlush nextLeaderSlot sendOk entryCount r).workingBank =
      if sendOk then r.workingBank else none := by
  unfold commitFlush
  split_ifs <;> simp

variable (tick : Bool)

/-- The recorder a flush leaves: the one it had, or the one `reachMaxTickHeight` and then
`commitFlush` make of it. -/
theorem flushCache_fst_cases :
    (flushCache nextLeaderSlot r tick).1 = r ∨ ∃ wb sendOk entryCount,
      (flushCache nextLeaderSlot r tick).1 =
        commitFlush nextLeaderSlot sendOk entryCount (reachMaxTickHeight nextLeaderSlot wb r) := by
  unfold flushCache
  cases r.workingBank with
  | none => exact .inl rfl
  | some wb =>
    dsimp -zeta only
    split_ifs
    · exact .inl rfl
    · exact .inl rfl
    · exact .inr ⟨wb, _, _, rfl⟩

@[simp] theorem flushCache_tickHeight :
    (flushCache nextLeaderSlot r tick).1.tickHeight = r.tickHeight := by
  rcases flushCache_fst_cases nextLeaderSlot r tick with h | ⟨wb, sendOk, n, h⟩ <;> simp [h]

@[simp] theorem flushCache_poh : (flushCache nextLeaderSlot r tick).1.poh = r.poh := by
  rcases flushCache_fst_cases nextLeaderSlot r tick with h | ⟨wb, sendOk, n, h⟩ <;> simp [h]

@[simp] theorem flushCache_connected :
    (flushCache nextLeaderSlot r tick).1.connected = r.connected := by
  rcases flushCache_fst_cases nextLeaderSlot r tick with h | ⟨wb, sendOk, n, h⟩ <;> simp [h]

@[simp] theorem flushCache_hashesPerTick :
    (flushCache nextLeaderSlot r tick).1.hashesPerTick = r.hashesPerTick := by
  rcases flushCache_fst_cases nextLeaderSlot r tick with h | ⟨wb, sendOk, n, h⟩ <;> simp [h]

/-- What a flush sends leaves the cache: the entries sent and then the cache after make up the cache
before. -/
theorem flushCache_sent_append :
    (flushCache nextLeaderSlot r tick).2.1.flatMap RecorderEffect.sent ++
      (flushCache nextLeaderSlot r tick).1.tickCache = r.tickCache := by
  unfold flushCache
  cases r.workingBank with
  | none => simp
  | some wb =>
    dsimp -zeta only
    split_ifs
    · simp
    · simp
    · generalize (r.tickCache.takeWhile fun x => decide (x.2 ≤ wb.maxTickHeight)).length = n
      simp only [List.flatMap_append, RecorderEffect.flatMap_sent_registerTick, List.nil_append,
        commitFlush_tickCache, reachMaxTickHeight_tickCache]
      by_cases hc : r.connected <;> rcases Nat.eq_zero_or_pos n with rfl | hn
      · simp
      · simp [hc, hn]
      · simp
      · simp [hc, hn.ne']

/-- A flush sends to the working bank only, and only the cached ticks up to its
`max_tick_height`. -/
theorem flushCache_send {wb : WorkingBank} {entries : List (Entry × Nat)}
    (h : RecorderEffect.send wb entries ∈ (flushCache nextLeaderSlot r tick).2.1) :
    r.workingBank = some wb ∧ entries = r.tickCache.takeWhile (·.2 ≤ wb.maxTickHeight) := by
  unfold flushCache at h
  rcases hwb : r.workingBank with _ | wb'
  · simp [hwb] at h
  · simp -zeta only [hwb] at h
    split_ifs at h
    · simp at h
    · simp at h
    · simp only [List.mem_append, List.mem_map, reduceCtorEq, and_false, exists_false,
        false_or] at h
      split_ifs at h
      · obtain ⟨rfl, rfl⟩ : wb = wb' ∧ _ := by simpa using h
        exact ⟨rfl, take_length_takeWhile _ _⟩
      · simp at h

/-- A flush goes ahead when there is a working bank at or past its `min_tick_height` (past it, for
a tick's flush). -/
theorem flushCache_ok_iff :
    (flushCache nextLeaderSlot r tick).2.2 = .ok () ↔ ∃ wb, r.workingBank = some wb ∧
      wb.minTickHeight ≤ r.tickHeight ∧ ¬(tick = true ∧ r.tickHeight = wb.minTickHeight) := by
  unfold flushCache
  rcases hwb : r.workingBank with _ | wb
  · simp
  · simp only [Option.some.injEq, exists_eq_left']
    split_ifs <;> simp_all

/-- A flush that does not go ahead changes nothing and does nothing. -/
theorem flushCache_of_not_ok (h : (flushCache nextLeaderSlot r tick).2.2 ≠ .ok ()) :
    (flushCache nextLeaderSlot r tick).1 = r ∧ (flushCache nextLeaderSlot r tick).2.1 = [] := by
  unfold flushCache at h ⊢
  rcases hwb : r.workingBank with _ | wb
  · simp
  · simp only [hwb] at h ⊢
    split_ifs at h ⊢ <;> simp_all

/-- The recorder after a flush that goes ahead. -/
theorem flushCache_fst_of_ok (hwb : r.workingBank = some wb)
    (hready : wb.minTickHeight ≤ r.tickHeight ∧ ¬(tick = true ∧ r.tickHeight = wb.minTickHeight)) :
    (flushCache nextLeaderSlot r tick).1 =
      let entryCount := (r.tickCache.takeWhile (·.2 ≤ wb.maxTickHeight)).length
      commitFlush nextLeaderSlot (decide (entryCount = 0 ∨ r.connected = true)) entryCount
        (reachMaxTickHeight nextLeaderSlot wb r) := by
  unfold flushCache
  simp only [hwb]
  rw [if_neg (by omega), if_neg hready.2]

/-- A flush that succeeds and leaves a working bank had that bank, at a tick height in its range,
and took every cached tick up to its `max_tick_height` out of the cache. -/
theorem flushCache_workingBank {wb : WorkingBank}
    (hok : (flushCache nextLeaderSlot r tick).2.2 = .ok ())
    (hwb : (flushCache nextLeaderSlot r tick).1.workingBank = some wb) :
    r.workingBank = some wb ∧ wb.minTickHeight ≤ r.tickHeight ∧
      r.tickHeight < wb.maxTickHeight ∧
      (flushCache nextLeaderSlot r tick).1.tickCache =
        r.tickCache.dropWhile (·.2 ≤ wb.maxTickHeight) := by
  obtain ⟨wb', hwb', hready⟩ := (flushCache_ok_iff nextLeaderSlot r tick).1 hok
  rw [flushCache_fst_of_ok nextLeaderSlot r wb' tick hwb' hready] at hwb ⊢
  simp only [commitFlush_workingBank, commitFlush_tickCache, reachMaxTickHeight_tickCache] at hwb ⊢
  -- a failed send drops the bank, so the send went through
  split_ifs at hwb ⊢
  have hmax : r.tickHeight < wb'.maxTickHeight := by
    by_contra hge
    unfold reachMaxTickHeight at hwb
    rw [if_pos (by omega), clearBank_workingBank] at hwb
    cases hwb
  rw [reachMaxTickHeight_workingBank _ _ _ hmax, hwb'] at hwb
  cases hwb
  exact ⟨hwb', hready.1, hmax, drop_length_takeWhile _ _⟩

end Flush

section Steps

variable (nextLeaderSlot : Slot → Option Slot) (r : PohRecorder)

/-- What a tick can do: move the generator on; or also raise the tick height; or also cache a tick
at the new height and flush. -/
theorem tick_cases :
    r.tick nextLeaderSlot = ({ r with poh := r.poh.tick.1 }, []) ∨
    r.tick nextLeaderSlot =
      ({ r with poh := r.poh.tick.1, tickHeight := r.tickHeight + 1 }, []) ∨
    ∃ e : Entry, e.transactions = [] ∧
      let r' := { r with
        poh := r.poh.tick.1, tickHeight := r.tickHeight + 1,
        tickCache := r.tickCache ++ [(e, r.tickHeight + 1)] }
      r.tick nextLeaderSlot =
        ((flushCache nextLeaderSlot r' true).1, (flushCache nextLeaderSlot r' true).2.1) := by
  unfold tick
  rcases htick : r.poh.tick with ⟨poh, _ | e⟩
  · exact .inl rfl
  · dsimp only
    split_ifs
    · exact .inr (.inl rfl)
    · exact .inr (.inr ⟨_, rfl, rfl⟩)

@[simp] theorem tick_poh : (r.tick nextLeaderSlot).1.poh = r.poh.tick.1 := by
  rcases tick_cases nextLeaderSlot r with h | h | ⟨e, -, h⟩ <;> simp [h]

@[simp] theorem tick_hashesPerTick :
    (r.tick nextLeaderSlot).1.hashesPerTick = r.hashesPerTick := by
  rcases tick_cases nextLeaderSlot r with h | h | ⟨e, -, h⟩ <;> simp [h]

variable (bankSlot : Slot) (mixin : Hash) (transactions : List Transaction)

/-- What a turn of `record`'s loop can do after its flush: stop with an error; send the entry to
the working bank; fail to send it; or tick, when the generator's next hash must be a tick, and go
on. -/
theorem recordTurn_cases :
    let f := flushCache nextLeaderSlot r false
    let p := f.1.poh.record mixin
    (∃ e, recordTurn nextLeaderSlot bankSlot mixin transactions r = .inl (f.1, f.2.1, .error e)) ∨
    (∃ wb e, f.2.2 = .ok () ∧ f.1.workingBank = some wb ∧ e.transactions = transactions ∧
      recordTurn nextLeaderSlot bankSlot mixin transactions r =
        .inl ({ f.1 with poh := p.1 }, f.2.1 ++ [.send wb [(e, f.1.tickHeight)]], .ok ())) ∨
    recordTurn nextLeaderSlot bankSlot mixin transactions r =
      .inl ({ f.1 with poh := p.1 }, f.2.1, .error .send) ∨
    (p.2 = none ∧ recordTurn nextLeaderSlot bankSlot mixin transactions r =
      .inr ((tick nextLeaderSlot { f.1 with poh := p.1 }).1,
        f.2.1 ++ (tick nextLeaderSlot { f.1 with poh := p.1 }).2)) := by
  unfold recordTurn
  rcases hf : flushCache nextLeaderSlot r false with ⟨r₁, flushed, res⟩
  simp only
  split
  · exact .inl ⟨_, rfl⟩
  · exact .inl ⟨_, rfl⟩
  · rename_i wb hwb
    by_cases hslot : bankSlot ≠ wb.slot
    · rw [if_pos hslot]
      exact .inl ⟨_, rfl⟩
    rw [if_neg hslot]
    split
    · rename_i poh e hrec
      by_cases hc : r₁.connected
      · rw [if_pos hc]
        exact .inr (.inl ⟨wb, _, rfl, hwb, rfl, by rw [hrec]⟩)
      · rw [if_neg hc]
        exact .inr (.inr (.inl (by rw [hrec])))
    · rename_i poh hrec
      exact .inr (.inr (.inr ⟨by rw [hrec], by rw [hrec]⟩))

/-- What every recorder that `new` makes keeps: a generator of more than one hash a tick, and a
configured tick that `Poh::new` accepts, so that a reset cannot panic. -/
def Healthy (r : PohRecorder) : Prop :=
  1 < r.poh.hashesPerTick ∧ 1 < r.hashesPerTick.getD (2 ^ 64 - 1)

/-- A new recorder has an empty cache, and is healthy. -/
theorem new_eq_some {tickHeight : Nat} {lastEntryHash : Hash} {startSlot : Slot}
    {myLeaderSlotIndex : Option Slot} {ticksPerSlot : Nat} {hashesPerTick : Option Nat}
    (h : new tickHeight lastEntryHash startSlot myLeaderSlotIndex ticksPerSlot hashesPerTick =
      some r) :
    r.tickCache = [] ∧ Healthy r := by
  unfold new at h
  obtain ⟨poh, hpoh, h⟩ := Option.bind_eq_some_iff.1 h
  cases h
  obtain ⟨heq, hk⟩ := Poh.hashesPerTick_of_new hpoh
  exact ⟨rfl, heq ▸ hk, hk⟩

/-- A reset empties the cache, sets the tick height, keeps the configured tick, and starts a
generator of more than one hash a tick. -/
theorem reset_eq_some {r' : PohRecorder} {tickHeight : Nat} {blockhash : Hash} {startSlot : Slot}
    {myNextLeaderSlot : Option Slot} {ticksPerSlot : Nat}
    (h : r.reset nextLeaderSlot tickHeight blockhash startSlot myNextLeaderSlot ticksPerSlot =
      some r') :
    r'.tickCache = [] ∧ r'.tickHeight = tickHeight ∧ r'.hashesPerTick = r.hashesPerTick ∧
      1 < r'.poh.hashesPerTick := by
  unfold reset at h
  obtain ⟨poh, hpoh, h⟩ := Option.bind_eq_some_iff.1 h
  cases h
  obtain ⟨heq, hk⟩ := Poh.hashesPerTick_of_new hpoh
  exact ⟨rfl, rfl, clearBank_hashesPerTick nextLeaderSlot r, heq ▸ hk⟩

theorem step_record_eq_some {r' : PohRecorder} {more : List RecorderEffect}
    (h : r.step nextLeaderSlot (.record bankSlot mixin transactions) = some (r', more)) :
    transactions ≠ [] ∧
      ∃ res, recordLoop nextLeaderSlot bankSlot mixin transactions 2 r = some (r', more, res) := by
  obtain ⟨⟨r'', more', res⟩, hrec, hout⟩ := Option.map_eq_some_iff.1 h
  cases hout
  unfold record at hrec
  split_ifs at hrec with hempty
  exact ⟨by simpa using hempty, res, hrec⟩

theorem recordLoop_succ_of_inl {fuel : Nat} {r : PohRecorder}
    {out : PohRecorder × List RecorderEffect × Except RecordError Unit}
    (h : recordTurn nextLeaderSlot bankSlot mixin transactions r = .inl out) :
    recordLoop nextLeaderSlot bankSlot mixin transactions (fuel + 1) r = some out := by
  rw [recordLoop_succ, h]

theorem recordLoop_succ_of_inr {fuel : Nat} {r r' : PohRecorder} {effects : List RecorderEffect}
    (h : recordTurn nextLeaderSlot bankSlot mixin transactions r = .inr (r', effects)) :
    recordLoop nextLeaderSlot bankSlot mixin transactions (fuel + 1) r =
      (recordLoop nextLeaderSlot bankSlot mixin transactions fuel r').map
        fun (r, more, result) => (r, effects ++ more, result) := by
  rw [recordLoop_succ, h]

/-- A property of the recorder and the effects so far that each turn keeps holds after `record`'s
loop. -/
theorem recordLoop_invariant (inv : PohRecorder → List RecorderEffect → Prop)
    (hinl : ∀ r outs out, inv r outs →
      recordTurn nextLeaderSlot bankSlot mixin transactions r = .inl out →
        inv out.1 (outs ++ out.2.1))
    (hinr : ∀ r outs r' effects, inv r outs →
      recordTurn nextLeaderSlot bankSlot mixin transactions r = .inr (r', effects) →
        inv r' (outs ++ effects)) :
    ∀ {fuel r outs out}, inv r outs →
      recordLoop nextLeaderSlot bankSlot mixin transactions fuel r = some out →
        inv out.1 (outs ++ out.2.1)
  | 0, _, _, _, _, h => by cases h
  | fuel + 1, r, outs, out, hr, h => by
    rcases hturn : recordTurn nextLeaderSlot bankSlot mixin transactions r with out' | ⟨r', effects⟩
    · rw [recordLoop_succ_of_inl nextLeaderSlot bankSlot mixin transactions hturn] at h
      cases h
      exact hinl r outs _ hr hturn
    · rw [recordLoop_succ_of_inr nextLeaderSlot bankSlot mixin transactions hturn] at h
      obtain ⟨out', h', rfl⟩ := Option.map_eq_some_iff.1 h
      have hrest := recordLoop_invariant inv hinl hinr (hinr r outs r' effects hr hturn) h'
      simpa [List.append_assoc] using hrest

end Steps

/-! ## The working bank's range -/

section Bounds

variable (nextLeaderSlot : Slot → Option Slot)

/-- The invariant of every run: the cache holds ticks only, and every effect so far kept to its
working bank's range. -/
def Bounded (cache : List (Entry × Nat)) (effects : List RecorderEffect) : Prop :=
  (∀ c ∈ cache, c.1.transactions = []) ∧ ∀ eff ∈ effects, eff.WithinBank

theorem Bounded.flushCache {r : PohRecorder} {effects : List RecorderEffect} (tick : Bool)
    (h : Bounded r.tickCache effects) :
    Bounded (flushCache nextLeaderSlot r tick).1.tickCache
      (effects ++ (flushCache nextLeaderSlot r tick).2.1) := by
  refine ⟨fun c hc => h.1 c ?_, fun eff heff => ?_⟩
  · rw [← flushCache_sent_append nextLeaderSlot r tick]
    exact List.mem_append_right _ hc
  rcases List.mem_append.1 heff with heff | heff
  · exact h.2 eff heff
  cases eff with
  | registerTick => trivial
  | send wb entries =>
    obtain ⟨-, rfl⟩ := flushCache_send nextLeaderSlot r tick heff
    intro e he
    have hmax : e.2 ≤ wb.maxTickHeight := by simpa using List.mem_takeWhile_imp he
    have htick := h.1 e ((List.takeWhile_sublist _).subset he)
    exact ⟨fun _ => hmax, fun hne => absurd htick hne⟩

theorem Bounded.tick {r : PohRecorder} {effects : List RecorderEffect}
    (h : Bounded r.tickCache effects) :
    Bounded (r.tick nextLeaderSlot).1.tickCache (effects ++ (r.tick nextLeaderSlot).2) := by
  rcases tick_cases nextLeaderSlot r with ht | ht | ⟨e, he, ht⟩ <;> rw [ht]
  · simpa using h
  · simpa using h
  · apply Bounded.flushCache
    refine ⟨fun c hc => ?_, h.2⟩
    rcases List.mem_append.1 hc with hc | hc
    · exact h.1 c hc
    · rw [List.mem_singleton.1 hc]
      exact he

variable (bankSlot : Slot) (mixin : Hash) (transactions : List Transaction)

theorem Bounded.recordTurn {r : PohRecorder} {effects : List RecorderEffect}
    (h : Bounded r.tickCache effects) :
    (∀ out, recordTurn nextLeaderSlot bankSlot mixin transactions r = .inl out →
      Bounded out.1.tickCache (effects ++ out.2.1)) ∧
    (∀ r' more, recordTurn nextLeaderSlot bankSlot mixin transactions r = .inr (r', more) →
      Bounded r'.tickCache (effects ++ more)) := by
  have hf := h.flushCache nextLeaderSlot false
  rcases recordTurn_cases nextLeaderSlot r bankSlot mixin transactions with
    ⟨e, ht⟩ | ⟨wb, e, hok, hwb, -, ht⟩ | ht | ⟨-, ht⟩ <;> rw [ht]
  · refine ⟨fun out hout => ?_, fun _ _ hout => by cases hout⟩
    cases hout
    exact hf
  · refine ⟨fun out hout => ?_, fun _ _ hout => by cases hout⟩
    cases hout
    -- the entry is sent at the tick height the flush found in the bank's range
    obtain ⟨-, hmin, hmax, -⟩ := flushCache_workingBank nextLeaderSlot r false hok hwb
    refine ⟨hf.1, fun eff heff => ?_⟩
    rw [← List.append_assoc] at heff
    rcases List.mem_append.1 heff with heff | heff
    · exact hf.2 eff heff
    · rw [List.mem_singleton.1 heff]
      intro x hx
      rw [List.mem_singleton.1 hx, flushCache_tickHeight]
      exact ⟨fun _ => hmax.le, fun _ => ⟨hmin, hmax⟩⟩
  · refine ⟨fun out hout => ?_, fun _ _ hout => by cases hout⟩
    cases hout
    exact hf
  · refine ⟨fun _ hout => (by cases hout), fun r' more hout => ?_⟩
    cases hout
    rw [← List.append_assoc]
    exact Bounded.tick nextLeaderSlot hf

theorem Bounded.recordLoop {r : PohRecorder} {effects : List RecorderEffect} {fuel : Nat}
    {out : PohRecorder × List RecorderEffect × Except RecordError Unit}
    (h : Bounded r.tickCache effects)
    (hloop : recordLoop nextLeaderSlot bankSlot mixin transactions fuel r = some out) :
    Bounded out.1.tickCache (effects ++ out.2.1) :=
  recordLoop_invariant nextLeaderSlot bankSlot mixin transactions (fun r effects =>
      Bounded r.tickCache effects)
    (fun _ _ out h hturn => (h.recordTurn nextLeaderSlot bankSlot mixin transactions).1 out hturn)
    (fun _ _ r' more h hturn =>
      (h.recordTurn nextLeaderSlot bankSlot mixin transactions).2 r' more hturn) h hloop

theorem Bounded.step {r r' : PohRecorder} {effects more : List RecorderEffect}
    {op : RecorderOp} (h : Bounded r.tickCache effects)
    (hstep : r.step nextLeaderSlot op = some (r', more)) :
    Bounded r'.tickCache (effects ++ more) := by
  cases op with
  | tick =>
    simp only [PohRecorder.step_tick, Option.some.injEq, Prod.ext_iff] at hstep
    obtain ⟨rfl, rfl⟩ := hstep
    exact h.tick nextLeaderSlot
  | record bankSlot mixin transactions =>
    obtain ⟨-, res, hloop⟩ := step_record_eq_some nextLeaderSlot r bankSlot mixin transactions hstep
    exact h.recordLoop nextLeaderSlot bankSlot mixin transactions hloop
  | reset tickHeight blockhash startSlot myNextLeaderSlot ticksPerSlot =>
    obtain ⟨r'', hreset, hout⟩ := Option.map_eq_some_iff.1 hstep
    cases hout
    rw [(reset_eq_some nextLeaderSlot r hreset).1, List.append_nil]
    exact ⟨by simp, h.2⟩
  | setBank slot ticksPerSlot bankTickHeight =>
    cases hstep
    rw [List.append_nil]
    exact h
  | disconnect =>
    cases hstep
    rw [List.append_nil]
    exact h

end Bounds

/-! ## The order of what is sent -/

section Order

variable (nextLeaderSlot : Slot → Option Slot)

/-- The invariant of a run without `reset`: the cache holds ticks, in increasing tick heights up to
the recorder's, each above everything sent so far; what was sent so far is in proof-of-history
order and not above the recorder's tick height. -/
structure Ordered (cache : List (Entry × Nat)) (tickHeight : Nat) (sent : List (Entry × Nat)) :
    Prop where
  cache_ticks : ∀ c ∈ cache, c.1.transactions = []
  cache_sorted : cache.Pairwise (·.2 < ·.2)
  cache_le : ∀ c ∈ cache, c.2 ≤ tickHeight
  sent_le : ∀ e ∈ sent, e.2 ≤ tickHeight
  sent_lt_cache : ∀ e ∈ sent, ∀ c ∈ cache, e.2 < c.2
  inOrder : InPohOrder sent

variable {cache : List (Entry × Nat)} {tickHeight : Nat} {sent : List (Entry × Nat)}

/-- Sending a first part of the cache keeps the order. -/
theorem Ordered.send_prefix {flushed rest : List (Entry × Nat)}
    (h : Ordered (flushed ++ rest) tickHeight sent) :
    Ordered rest tickHeight (sent ++ flushed) := by
  obtain ⟨hticks, hsorted, hle, hsent, hlt, horder⟩ := h
  obtain ⟨hsortedF, hsortedR, hFR⟩ := List.pairwise_append.1 hsorted
  refine ⟨fun c hc => hticks c (List.mem_append_right _ hc), hsortedR,
    fun c hc => hle c (List.mem_append_right _ hc), fun e he => ?_, fun e he c hc => ?_, ?_⟩
  · rcases List.mem_append.1 he with he | he
    · exact hsent e he
    · exact hle e (List.mem_append_left _ he)
  · rcases List.mem_append.1 he with he | he
    · exact hlt e he c (List.mem_append_right _ hc)
    · exact hFR e he c hc
  · refine List.pairwise_append.2 ⟨horder, hsortedF.imp fun hab => ⟨hab.le, fun _ => hab⟩,
      fun a ha b hb => ?_⟩
    have hab := hlt a ha b (List.mem_append_left _ hb)
    exact ⟨hab.le, fun _ => hab⟩

theorem Ordered.flushCache {r : PohRecorder} (tick : Bool)
    (h : Ordered r.tickCache r.tickHeight sent) :
    Ordered (flushCache nextLeaderSlot r tick).1.tickCache
      (flushCache nextLeaderSlot r tick).1.tickHeight
      (sent ++ (flushCache nextLeaderSlot r tick).2.1.flatMap RecorderEffect.sent) := by
  rw [flushCache_tickHeight]
  apply Ordered.send_prefix
  rwa [flushCache_sent_append]

theorem Ordered.mono {tickHeight' : Nat} (h : Ordered cache tickHeight sent)
    (hle : tickHeight ≤ tickHeight') : Ordered cache tickHeight' sent :=
  { h with
    cache_le := fun c hc => (h.cache_le c hc).trans hle
    sent_le := fun e he => (h.sent_le e he).trans hle }

/-- A tick cached at the next tick height keeps the order. -/
theorem Ordered.push {e : Entry} (h : Ordered cache tickHeight sent) (he : e.transactions = []) :
    Ordered (cache ++ [(e, tickHeight + 1)]) (tickHeight + 1) sent := by
  refine ⟨fun c hc => ?_, ?_, fun c hc => ?_, fun x hx => (h.sent_le x hx).trans (by omega),
    fun x hx c hc => ?_, h.inOrder⟩
  · rcases List.mem_append.1 hc with hc | hc
    · exact h.cache_ticks c hc
    · rw [List.mem_singleton.1 hc]
      exact he
  · refine List.pairwise_append.2 ⟨h.cache_sorted, List.pairwise_singleton _ _, ?_⟩
    intro a ha b hb
    rw [List.mem_singleton.1 hb]
    exact Nat.lt_succ_of_le (h.cache_le a ha)
  · rcases List.mem_append.1 hc with hc | hc
    · exact (h.cache_le c hc).trans (by omega)
    · rw [List.mem_singleton.1 hc]
  · rcases List.mem_append.1 hc with hc | hc
    · exact h.sent_lt_cache x hx c hc
    · rw [List.mem_singleton.1 hc]
      exact Nat.lt_succ_of_le (h.sent_le x hx)

/-- An entry with transactions sent at the tick height, with nothing cached, keeps the order. -/
theorem Ordered.send_entry {e : Entry} (h : Ordered [] tickHeight sent) (he : e.transactions ≠ []) :
    Ordered [] tickHeight (sent ++ [(e, tickHeight)]) := by
  refine ⟨by simp, List.Pairwise.nil, by simp, fun x hx => ?_, by simp, ?_⟩
  · rcases List.mem_append.1 hx with hx | hx
    · exact h.sent_le x hx
    · rw [List.mem_singleton.1 hx]
  · refine List.pairwise_append.2 ⟨h.inOrder, List.pairwise_singleton _ _, ?_⟩
    intro a ha b hb
    rw [List.mem_singleton.1 hb]
    exact ⟨h.sent_le a ha, fun hnil => absurd hnil he⟩

theorem Ordered.tick {r : PohRecorder} (h : Ordered r.tickCache r.tickHeight sent) :
    Ordered (r.tick nextLeaderSlot).1.tickCache (r.tick nextLeaderSlot).1.tickHeight
      (sent ++ (r.tick nextLeaderSlot).2.flatMap RecorderEffect.sent) := by
  rcases tick_cases nextLeaderSlot r with ht | ht | ⟨e, he, ht⟩ <;> rw [ht]
  · simpa using h
  · simpa using h.mono (Nat.le_succ _)
  · exact Ordered.flushCache nextLeaderSlot true (h.push he)

variable (bankSlot : Slot) (mixin : Hash) {transactions : List Transaction}

theorem Ordered.recordTurn {r : PohRecorder} (htx : transactions ≠ [])
    (h : Ordered r.tickCache r.tickHeight sent) :
    (∀ out, recordTurn nextLeaderSlot bankSlot mixin transactions r = .inl out →
      Ordered out.1.tickCache out.1.tickHeight (sent ++ out.2.1.flatMap RecorderEffect.sent)) ∧
    (∀ r' more, recordTurn nextLeaderSlot bankSlot mixin transactions r = .inr (r', more) →
      Ordered r'.tickCache r'.tickHeight (sent ++ more.flatMap RecorderEffect.sent)) := by
  have hf := h.flushCache nextLeaderSlot false
  rcases recordTurn_cases nextLeaderSlot r bankSlot mixin transactions with
    ⟨e, ht⟩ | ⟨wb, e, hok, hwb, hetx, ht⟩ | ht | ⟨-, ht⟩ <;> rw [ht]
  · refine ⟨fun out hout => ?_, fun _ _ hout => by cases hout⟩
    cases hout
    exact hf
  · refine ⟨fun out hout => ?_, fun _ _ hout => by cases hout⟩
    cases hout
    -- the flush found the bank below its max tick height, so it emptied the cache
    obtain ⟨-, -, hmax, hcache⟩ := flushCache_workingBank nextLeaderSlot r false hok hwb
    have hempty : (PohRecorder.flushCache nextLeaderSlot r false).1.tickCache = [] := by
      rw [hcache, List.dropWhile_eq_nil_iff]
      intro c hc
      simpa using (h.cache_le c hc).trans hmax.le
    rw [hempty] at hf
    simpa [hempty, List.flatMap_append, List.append_assoc] using
      hf.send_entry (e := e) (by rw [hetx]; exact htx)
  · refine ⟨fun out hout => ?_, fun _ _ hout => by cases hout⟩
    cases hout
    exact hf
  · refine ⟨fun _ hout => (by cases hout), fun r' more hout => ?_⟩
    cases hout
    rw [List.flatMap_append, ← List.append_assoc]
    exact Ordered.tick nextLeaderSlot hf

theorem Ordered.recordLoop {r : PohRecorder} {fuel : Nat}
    {out : PohRecorder × List RecorderEffect × Except RecordError Unit} (htx : transactions ≠ [])
    (h : Ordered r.tickCache r.tickHeight sent)
    (hloop : recordLoop nextLeaderSlot bankSlot mixin transactions fuel r = some out) :
    Ordered out.1.tickCache out.1.tickHeight (sent ++ out.2.1.flatMap RecorderEffect.sent) := by
  have h₀ : Ordered r.tickCache r.tickHeight
      (sent ++ ([] : List RecorderEffect).flatMap RecorderEffect.sent) := by
    simpa using h
  have hinv := recordLoop_invariant nextLeaderSlot bankSlot mixin transactions
    (fun r effects =>
      Ordered r.tickCache r.tickHeight (sent ++ effects.flatMap RecorderEffect.sent))
    (fun _ outs out h hturn => by
      simpa [List.flatMap_append, List.append_assoc] using
        (h.recordTurn nextLeaderSlot bankSlot mixin htx).1 out hturn)
    (fun _ outs r' more h hturn => by
      simpa [List.flatMap_append, List.append_assoc] using
        (h.recordTurn nextLeaderSlot bankSlot mixin htx).2 r' more hturn)
    h₀ hloop
  simpa using hinv

theorem Ordered.step {r r' : PohRecorder} {more : List RecorderEffect} {op : RecorderOp}
    (hop : op.isReset = false) (h : Ordered r.tickCache r.tickHeight sent)
    (hstep : r.step nextLeaderSlot op = some (r', more)) :
    Ordered r'.tickCache r'.tickHeight (sent ++ more.flatMap RecorderEffect.sent) := by
  cases op with
  | tick =>
    simp only [PohRecorder.step_tick, Option.some.injEq, Prod.ext_iff] at hstep
    obtain ⟨rfl, rfl⟩ := hstep
    exact h.tick nextLeaderSlot
  | record bankSlot mixin transactions =>
    obtain ⟨htx, res, hloop⟩ :=
      step_record_eq_some nextLeaderSlot r bankSlot mixin transactions hstep
    exact h.recordLoop nextLeaderSlot bankSlot mixin htx hloop
  | reset => cases hop
  | setBank slot ticksPerSlot bankTickHeight =>
    cases hstep
    rw [List.flatMap_nil, List.append_nil]
    exact h
  | disconnect =>
    cases hstep
    simpa using h

end Order

/-! ## The turns of `record` -/

section Turns

variable (nextLeaderSlot : Slot → Option Slot) (bankSlot : Slot) (mixin : Hash)
  (transactions : List Transaction)

/-- A turn ends the loop unless the generator is on its last hash before a tick. -/
theorem recordTurn_inl_of_ne_one {r : PohRecorder} (h : r.poh.remainingHashes ≠ 1) :
    ∃ out, recordTurn nextLeaderSlot bankSlot mixin transactions r = .inl out := by
  rcases recordTurn_cases nextLeaderSlot r bankSlot mixin transactions with
    ⟨e, ht⟩ | ⟨wb, e, -, -, -, ht⟩ | ht | ⟨hnone, -⟩
  · exact ⟨_, ht⟩
  · exact ⟨_, ht⟩
  · exact ⟨_, ht⟩
  · rw [Poh.record_eq_none_iff, flushCache_poh] at hnone
    exact absurd hnone h

/-- A turn that goes on has ticked the generator off its last hash. -/
theorem recordTurn_inr_poh {r r' : PohRecorder} {more : List RecorderEffect}
    (h : recordTurn nextLeaderSlot bankSlot mixin transactions r = .inr (r', more)) :
    r.poh.remainingHashes = 1 ∧ r'.poh = r.poh.tick.1 := by
  rcases recordTurn_cases nextLeaderSlot r bankSlot mixin transactions with
    ⟨e, ht⟩ | ⟨wb, e, -, -, -, ht⟩ | ht | ⟨hnone, ht⟩ <;> rw [ht] at h
  · cases h
  · cases h
  · cases h
  · cases h
    simp only [flushCache_poh] at hnone
    refine ⟨(Poh.record_eq_none_iff _ _).1 hnone, ?_⟩
    simp [Poh.record_fst_of_none hnone]

/-- More turns do not change a loop that has returned. -/
theorem recordLoop_succ_of_eq_some {r : PohRecorder}
    {out : PohRecorder × List RecorderEffect × Except RecordError Unit} :
    ∀ {fuel}, recordLoop nextLeaderSlot bankSlot mixin transactions fuel r = some out →
      recordLoop nextLeaderSlot bankSlot mixin transactions (fuel + 1) r = some out
  | 0, h => by cases h
  | fuel + 1, h => by
    rcases hturn : recordTurn nextLeaderSlot bankSlot mixin transactions r with out' | ⟨r', more⟩
    · rw [recordLoop_succ_of_inl nextLeaderSlot bankSlot mixin transactions hturn] at h ⊢
      exact h
    · rw [recordLoop_succ_of_inr nextLeaderSlot bankSlot mixin transactions hturn] at h ⊢
      obtain ⟨out', h', rfl⟩ := Option.map_eq_some_iff.1 h
      rw [recordLoop_succ_of_eq_some h']
      rfl

/-- A generator of more than one hash a tick ends `record`'s loop within two turns. -/
theorem recordLoop_two {r : PohRecorder} (hk : 1 < r.poh.hashesPerTick) :
    ∃ out, recordLoop nextLeaderSlot bankSlot mixin transactions 2 r = some out := by
  rcases hturn : recordTurn nextLeaderSlot bankSlot mixin transactions r with out | ⟨r', more⟩
  · exact ⟨out, recordLoop_succ_of_inl nextLeaderSlot bankSlot mixin transactions hturn⟩
  · -- after the tick the generator has a whole tick's hashes, so the second turn ends the loop
    obtain ⟨-, hpoh⟩ := recordTurn_inr_poh nextLeaderSlot bankSlot mixin transactions hturn
    have hone : r.poh.remainingHashes = 1 := (recordTurn_inr_poh _ _ _ _ hturn).1
    have hne : r'.poh.remainingHashes ≠ 1 := by
      rw [hpoh, Poh.tick_remainingHashes_of_one hone]
      omega
    obtain ⟨out, hout⟩ := recordTurn_inl_of_ne_one nextLeaderSlot bankSlot mixin transactions hne
    refine ⟨(out.1, more ++ out.2.1, out.2.2), ?_⟩
    rw [recordLoop_succ_of_inr nextLeaderSlot bankSlot mixin transactions hturn,
      recordLoop_succ_of_inl nextLeaderSlot bankSlot mixin transactions hout, Option.map_some]

/-- More turns do not change a loop that has returned. -/
theorem recordLoop_of_le {r : PohRecorder}
    {out : PohRecorder × List RecorderEffect × Except RecordError Unit} {fuel fuel' : Nat}
    (hle : fuel ≤ fuel')
    (h : recordLoop nextLeaderSlot bankSlot mixin transactions fuel r = some out) :
    recordLoop nextLeaderSlot bankSlot mixin transactions fuel' r = some out := by
  induction hle with
  | refl => exact h
  | step _ ih => exact recordLoop_succ_of_eq_some nextLeaderSlot bankSlot mixin transactions ih

theorem Healthy.recordTurn {r : PohRecorder} (h : Healthy r) :
    (∀ out, recordTurn nextLeaderSlot bankSlot mixin transactions r = .inl out → Healthy out.1) ∧
    (∀ r' more, recordTurn nextLeaderSlot bankSlot mixin transactions r = .inr (r', more) →
      Healthy r') := by
  rcases recordTurn_cases nextLeaderSlot r bankSlot mixin transactions with
    ⟨e, ht⟩ | ⟨wb, e, -, -, -, ht⟩ | ht | ⟨-, ht⟩ <;> rw [ht] <;>
    refine ⟨fun out hout => ?_, fun r' more hout => ?_⟩ <;> cases hout <;> simpa [Healthy] using h

theorem Healthy.recordLoop {r : PohRecorder} {fuel : Nat}
    {out : PohRecorder × List RecorderEffect × Except RecordError Unit} (h : Healthy r)
    (hloop : recordLoop nextLeaderSlot bankSlot mixin transactions fuel r = some out) :
    Healthy out.1 :=
  @recordLoop_invariant nextLeaderSlot bankSlot mixin transactions (fun r _ => Healthy r)
    (fun _ _ out h hturn => (h.recordTurn nextLeaderSlot bankSlot mixin transactions).1 out hturn)
    (fun _ _ r' more h hturn =>
      (h.recordTurn nextLeaderSlot bankSlot mixin transactions).2 r' more hturn) fuel r [] out h
    hloop

end Turns

section Health

variable (nextLeaderSlot : Slot → Option Slot)

theorem Healthy.step {r r' : PohRecorder} {more : List RecorderEffect} {op : RecorderOp}
    (h : Healthy r) (hstep : r.step nextLeaderSlot op = some (r', more)) : Healthy r' := by
  cases op with
  | tick =>
    simp only [PohRecorder.step_tick, Option.some.injEq, Prod.ext_iff] at hstep
    obtain ⟨rfl, rfl⟩ := hstep
    simpa [Healthy] using h
  | record bankSlot mixin transactions =>
    obtain ⟨-, res, hloop⟩ := step_record_eq_some nextLeaderSlot r bankSlot mixin transactions hstep
    exact h.recordLoop nextLeaderSlot bankSlot mixin transactions hloop
  | reset tickHeight blockhash startSlot myNextLeaderSlot ticksPerSlot =>
    obtain ⟨r'', hreset, hout⟩ := Option.map_eq_some_iff.1 hstep
    cases hout
    obtain ⟨-, -, hconf, hk⟩ := reset_eq_some nextLeaderSlot r hreset
    exact ⟨hk, hconf ▸ h.2⟩
  | setBank slot ticksPerSlot bankTickHeight =>
    cases hstep
    exact h
  | disconnect =>
    cases hstep
    exact h

/-- A healthy recorder takes every call but a `record` without transactions. -/
theorem Healthy.step_isSome {r : PohRecorder} {op : RecorderOp} (h : Healthy r)
    (hop : op.recordsNothing = false) : (r.step nextLeaderSlot op).isSome := by
  cases op with
  | tick => rfl
  | record bankSlot mixin transactions =>
    have htx : transactions.isEmpty = false := hop
    obtain ⟨out, hloop⟩ := recordLoop_two nextLeaderSlot bankSlot mixin transactions h.1
    simp [PohRecorder.step_record, record, htx, hloop]
  | reset tickHeight blockhash startSlot myNextLeaderSlot ticksPerSlot =>
    simp [PohRecorder.step_reset, reset, Poh.reset, Poh.new_eq _ h.2]
  | setBank slot ticksPerSlot bankTickHeight => rfl
  | disconnect => rfl

end Health


end PohRecorder

section Runs

variable (nextLeaderSlot : Slot → Option Slot)

/-- The recorder that `new` makes at tick height 0 for two hashes a tick, as the leader of
slot 0. -/
def leaderRecorder : PohRecorder :=
  ⟨⟨default, 0, 2, 2⟩, 0, 0, 1, [], none, some 1, some 1, 1, 2, some 2, true⟩

/-- Setting the bank of slot 0 on `leaderRecorder` and ticking twice: the tick at height 1 is
registered on the bank and sent, which reaches the bank's last tick and drops it. -/
def leaderTickRun : PohRecorder × List RecorderEffect :=
  (⟨⟨rehash 2 default, 0, 2, 2⟩, 1, 0, 2, [], none, none, none, 1, 2, some 2, true⟩,
    [.registerTick 0 (rehash 2 default), .send ⟨0, 2, 0, 1⟩ [(⟨2, rehash 2 default, []⟩, 1)]])

/-- Whatever the calls, a recorder sends ticks to a working bank only up to its `max_tick_height`,
and entries with transactions only from its `min_tick_height` to below its `max_tick_height`. -/
theorem sent_within_working_bank {tickHeight : Nat} {lastEntryHash : Hash} {startSlot : Slot}
    {myLeaderSlotIndex : Option Slot} {ticksPerSlot : Nat} {hashesPerTick : Option Nat}
    {r₀ r : PohRecorder} {ops : List RecorderOp} {effects : List RecorderEffect}
    (hnew : PohRecorder.new tickHeight lastEntryHash startSlot myLeaderSlotIndex ticksPerSlot
      hashesPerTick = some r₀)
    (hrun : Machine.run (PohRecorder.step nextLeaderSlot) r₀ ops = some (r, effects)) :
    ∀ eff ∈ effects, eff.WithinBank := by
  have h₀ : PohRecorder.Bounded r₀.tickCache [] := by
    simp [PohRecorder.Bounded, (PohRecorder.new_eq_some _ hnew).1]
  have hinv := Machine.run_invariant_trace _ (fun _ => True)
    (fun r effects => PohRecorder.Bounded r.tickCache effects)
    (fun _ _ _ _ _ _ h hstep => h.step nextLeaderSlot hstep) (fun _ _ => trivial) h₀ hrun
  exact hinv.2

theorem sent_within_working_bank_leader_tick :
    (RecorderEffect.send ⟨0, 2, 0, 1⟩ [(⟨2, rehash 2 default, []⟩, 1)]).WithinBank :=
  sent_within_working_bank (fun _ => none)
    (show PohRecorder.new 0 default 0 (some 0) 2 (some 2) = some leaderRecorder from rfl)
    (show Machine.run (PohRecorder.step fun _ => none) leaderRecorder
      [.setBank 0 2 0, .tick, .tick] = some leaderTickRun from rfl) _
    (List.mem_cons_of_mem _ List.mem_cons_self)

end Runs

end Morgan
