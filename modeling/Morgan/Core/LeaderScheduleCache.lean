import Morgan.Core.LeaderSchedule

/-!
# The leader schedule cache

`LeaderScheduleCache` of `leaderArrangeCache.rs` keeps the leader schedules it computed, keyed by
epoch, at most `MAX_SCHEDULES` of them: past that the oldest is evicted (`retain_latest`).
`slot_leader_at` answers from the cache, computes a missing schedule from the bank it is given,
and refuses an epoch past the stakers epoch of the root (`max_epoch`).  `next_leader_slot` walks
the slots after a given one through the schedules of their epochs until it finds the node.

Schedules are cached by epoch alone, whatever bank they were computed from.  While every cached
schedule is the one the asking bank computes (`Agrees`, kept by every lookup with that bank,
`agrees_slotLeaderAt`), the cache answers as `slot_leader_at` of the bank does
(`slotLeaderAt_eq_of_agrees`).  A schedule cached from another bank with other stakes for the epoch
is returned as it is.
-/

namespace Morgan

/-- `MAX_SCHEDULES`. -/
def MAX_SCHEDULES : Nat := 10

/-- `LeaderScheduleCache`: the cached schedules with the order of their insertion, the schedule of
epochs, and `max_epoch`. -/
structure LeaderScheduleCache where
  cachedSchedules : AssocMap UInt64 LeaderSchedule
  order : List UInt64
  epochSchedule : EpochSchedule
  maxEpoch : UInt64
  deriving DecidableEq, Repr

namespace LeaderScheduleCache

variable (sampler : WeightedSampler)

/-- `set_root`. -/
def setRoot (cache : LeaderScheduleCache) (root : UInt64) : LeaderScheduleCache :=
  { cache with maxEpoch := cache.epochSchedule.getStakersEpoch root }

/-- `new`. -/
def new (epochSchedule : EpochSchedule) (root : UInt64) : LeaderScheduleCache :=
  setRoot ⟨[], [], epochSchedule, 0⟩ root

/-- `new_from_bank`. -/
def newFromBank (bank : StakesBank) : LeaderScheduleCache :=
  new bank.epochSchedule bank.slot

/-- `retain_latest`: past `MAX_SCHEDULES` schedules the oldest is removed; `none` is the panic of
`pop_front().unwrap()` on an empty order. -/
def retainLatest (schedules : AssocMap UInt64 LeaderSchedule) (order : List UInt64) :
    Option (AssocMap UInt64 LeaderSchedule × List UInt64) :=
  if schedules.length > MAX_SCHEDULES then
    match order with
    | [] => none
    | first :: order => some (schedules.erase first, order)
  else some (schedules, order)

/-- `slot_leader_at_no_compute`; the outer `none` is a panic. -/
def slotLeaderAtNoCompute (cache : LeaderScheduleCache) (slot : UInt64) : Option (Option Pubkey) :=
  let (epoch, slotIndex) := cache.epochSchedule.getEpochAndSlotIndex slot
  match cache.cachedSchedules.get? epoch with
  | none => some none
  | some schedule => (schedule.index slotIndex).map some

/-- `compute_epoch_schedule`: the bank's schedule of the epoch, cached unless the epoch already has
one; the computed schedule is returned either way.  `none` is a panic. -/
def computeEpochSchedule (cache : LeaderScheduleCache) (epoch : UInt64) (bank : StakesBank) :
    Option (Option LeaderSchedule × LeaderScheduleCache) :=
  match leaderSchedule sampler epoch bank with
  | none => none
  | some none => some (none, cache)
  | some (some leaderSchedule) =>
    if (cache.cachedSchedules.get? epoch).isSome then some (some leaderSchedule, cache)
    else do
      let (cachedSchedules, order) ←
        retainLatest (cache.cachedSchedules.set epoch leaderSchedule) (cache.order ++ [epoch])
      pure (some leaderSchedule, { cache with cachedSchedules, order })

/-- `slot_leader_at_else_compute`; `none` is a panic. -/
def slotLeaderAtElseCompute (cache : LeaderScheduleCache) (slot : UInt64) (bank : StakesBank) :
    Option (Option Pubkey × LeaderScheduleCache) := do
  let cacheResult ← cache.slotLeaderAtNoCompute slot
  -- forbid asking for slots in an unconfirmed epoch
  let bankEpoch := (cache.epochSchedule.getEpochAndSlotIndex slot).1
  if bankEpoch > cache.maxEpoch then pure (none, cache)
  else if cacheResult.isSome then pure (cacheResult, cache)
  else
    let (epoch, slotIndex) := bank.epochSchedule.getEpochAndSlotIndex slot
    let (epochSchedule, cache) ← cache.computeEpochSchedule sampler epoch bank
    match epochSchedule with
    | some epochSchedule => (epochSchedule.index slotIndex).map fun leader => (some leader, cache)
    | none => pure (none, cache)

/-- `slot_leader_at`; `none` is a panic. -/
def slotLeaderAt (cache : LeaderScheduleCache) (slot : UInt64) (bank : Option StakesBank) :
    Option (Option Pubkey × LeaderScheduleCache) :=
  match bank with
  | some bank => cache.slotLeaderAtElseCompute sampler slot bank
  | none => (cache.slotLeaderAtNoCompute slot).map fun leader => (leader, cache)

/-- `get_epoch_schedule_else_compute`; `none` is a panic. -/
def getEpochScheduleElseCompute (cache : LeaderScheduleCache) (epoch : UInt64)
    (bank : StakesBank) : Option (Option LeaderSchedule × LeaderScheduleCache) :=
  match cache.cachedSchedules.get? epoch with
  | some epochSchedule => some (some epochSchedule, cache)
  | none => cache.computeEpochSchedule sampler epoch bank

/-- The inner loop of `next_leader_slot` over indexes of one epoch: the slot counter moves on a
slot an index, and the loop returns at the first slot the node leads.  The counter comes back with
whether the node was found; `none` is a panic of the index. -/
def scanEpoch (schedule : LeaderSchedule) (pubkey : Pubkey) (currentSlot : UInt64) :
    List UInt64 → Option (UInt64 × Bool)
  | [] => some (currentSlot, false)
  | i :: is => do
    let currentSlot := currentSlot + 1
    let leader ← schedule.index i
    if pubkey = leader then some (currentSlot, true) else scanEpoch schedule pubkey currentSlot is

/-- The indexes `start_index..slots_in_epoch`. -/
def indexesFrom (startIndex slotsInEpoch : UInt64) : List UInt64 :=
  (List.range (slotsInEpoch.toNat - startIndex.toNat)).map fun k => UInt64.ofNat (startIndex.toNat + k)

/-- The outer loop of `next_leader_slot`, over the epochs from `epoch` while they have a schedule.
The loop goes through fewer epochs than there are epochs with a schedule, cached or computable,
so `fuel` for every epoch of a `u64` covers it. -/
def nextLeaderSlotFrom (pubkey : Pubkey) (bank : StakesBank) :
    Nat → LeaderScheduleCache → UInt64 → UInt64 → UInt64 →
      Option (Option UInt64 × LeaderScheduleCache)
  | 0, cache, _, _, _ => some (none, cache)
  | fuel + 1, cache, epoch, startIndex, currentSlot => do
    let (leaderSchedule, cache) ← cache.getEpochScheduleElseCompute sampler epoch bank
    match leaderSchedule with
    | none => some (none, cache)
    | some leaderSchedule =>
      let (currentSlot, found) ← scanEpoch leaderSchedule pubkey currentSlot
        (indexesFrom startIndex (bank.epochSchedule.getSlotsInEpoch epoch))
      if found then some (some currentSlot, cache)
      else nextLeaderSlotFrom pubkey bank fuel cache (epoch + 1) 0 currentSlot

/-- `next_leader_slot` without a blocktree; `none` is a panic. -/
def nextLeaderSlot (cache : LeaderScheduleCache) (pubkey : Pubkey) (currentSlot : UInt64)
    (bank : StakesBank) : Option (Option UInt64 × LeaderScheduleCache) :=
  let (epoch, startIndex) := bank.epochSchedule.getEpochAndSlotIndex (currentSlot + 1)
  nextLeaderSlotFrom sampler pubkey bank (2 ^ 64) cache epoch startIndex currentSlot

/-! ## The cache's order -/

/-- The cache's order lists its epochs, each once, oldest first. -/
def WellFormed (cache : LeaderScheduleCache) : Prop :=
  cache.cachedSchedules.keys = cache.order ∧ cache.order.Nodup

theorem wellFormed_new (epochSchedule : EpochSchedule) (root : UInt64) :
    (new epochSchedule root).WellFormed :=
  ⟨rfl, List.nodup_nil⟩

/-- Caching an epoch with no schedule appends it to the order. -/
theorem keys_set_of_get?_eq_none {schedules : AssocMap UInt64 LeaderSchedule} {order : List UInt64}
    (hkeys : schedules.keys = order) (hnodup : order.Nodup) {epoch : UInt64}
    (hget : schedules.get? epoch = none) (schedule : LeaderSchedule) :
    (schedules.set epoch schedule).keys = order ++ [epoch] ∧ (order ++ [epoch]).Nodup := by
  have hnotmem : epoch ∉ schedules.keys := AssocMap.get?_eq_none_iff.1 hget
  refine ⟨?_, ?_⟩
  · rw [AssocMap.set_of_not_mem hnotmem, AssocMap.keys, List.map_append, ← AssocMap.keys, hkeys]
    rfl
  · rw [← List.concat_eq_append]
    exact hnodup.concat (hkeys ▸ hnotmem)

/-- On a well-formed cache `retain_latest` does not panic, and keeps it well formed. -/
theorem retainLatest_eq_some {schedules : AssocMap UInt64 LeaderSchedule} {order : List UInt64}
    (hkeys : schedules.keys = order) (hnodup : order.Nodup) :
    ∃ schedules' order', retainLatest schedules order = some (schedules', order') ∧
      schedules'.keys = order' ∧ order'.Nodup := by
  unfold retainLatest
  split_ifs with hlen
  · have hlength : schedules.length = order.length := by
      rw [← hkeys, AssocMap.keys, List.length_map]
    cases order with
    | nil => simp only [List.length_nil] at hlength; omega
    | cons first rest =>
      -- the oldest epoch is the first key
      exact ⟨_, _, rfl, AssocMap.keys_erase_of_keys_eq_cons hkeys (hkeys ▸ hnodup),
        (List.nodup_cons.1 hnodup).2⟩
  · exact ⟨_, _, rfl, hkeys, hnodup⟩

/-! ## A cache filled from one bank -/

/-- Every schedule the cache holds is the one the bank computes for its epoch. -/
def Agrees (bank : StakesBank) (cache : LeaderScheduleCache) : Prop :=
  ∀ epoch schedule, cache.cachedSchedules.get? epoch = some schedule →
    leaderSchedule sampler epoch bank = some (some schedule)

theorem agrees_new (bank : StakesBank) (epochSchedule : EpochSchedule) (root : UInt64) :
    Agrees sampler bank (new epochSchedule root) := by
  intro epoch schedule h
  cases h

/-- `retain_latest` only drops schedules. -/
theorem get?_of_retainLatest {schedules schedules' : AssocMap UInt64 LeaderSchedule}
    {order order' : List UInt64} (h : retainLatest schedules order = some (schedules', order'))
    {epoch : UInt64} {schedule : LeaderSchedule} (hget : schedules'.get? epoch = some schedule) :
    schedules.get? epoch = some schedule := by
  unfold retainLatest at h
  split_ifs at h
  · cases order with
    | nil => cases h
    | cons first order =>
      cases h
      exact AssocMap.get?_of_get?_erase hget
  · cases h
    exact hget

/-- What `compute_epoch_schedule` gives back: the bank's schedule, and a cache with the same
schedule of epochs and `max_epoch` that still agrees with the bank. -/
theorem computeEpochSchedule_eq_some {cache cache' : LeaderScheduleCache} {epoch : UInt64}
    {bank : StakesBank} {result : Option LeaderSchedule}
    (h : cache.computeEpochSchedule sampler epoch bank = some (result, cache')) :
    leaderSchedule sampler epoch bank = some result ∧
      cache'.epochSchedule = cache.epochSchedule ∧ cache'.maxEpoch = cache.maxEpoch ∧
      (Agrees sampler bank cache → Agrees sampler bank cache') ∧
      (cache.WellFormed → cache'.WellFormed) := by
  unfold computeEpochSchedule at h
  cases hls : leaderSchedule sampler epoch bank with
  | none => rw [hls] at h; cases h
  | some computed =>
    rw [hls] at h
    cases computed with
    | none =>
      cases h
      exact ⟨rfl, rfl, rfl, id, id⟩
    | some schedule =>
      dsimp only at h
      split_ifs at h with hcached
      · cases h
        exact ⟨rfl, rfl, rfl, id, id⟩
      · -- a new entry: the computed schedule, and what `retain_latest` keeps of the rest
        cases hretain : retainLatest (cache.cachedSchedules.set epoch schedule) (cache.order ++ [epoch])
          with
        | none => rw [hretain] at h; cases h
        | some retained =>
          rw [hretain] at h
          cases h
          refine ⟨rfl, rfl, rfl, fun hagree e s hget => ?_, fun hwf => ?_⟩
          · have hset := get?_of_retainLatest hretain hget
            by_cases he : e = epoch
            · subst he
              rw [AssocMap.get?_set_self] at hset
              cases hset
              exact hls
            · rw [AssocMap.get?_set_of_ne _ he] at hset
              exact hagree e s hset
          · have hnone : cache.cachedSchedules.get? epoch = none := by
              simpa using hcached
            obtain ⟨hkeys, hnodup⟩ := keys_set_of_get?_eq_none hwf.1 hwf.2 hnone schedule
            obtain ⟨_, _, hsome, hwf'⟩ := retainLatest_eq_some hkeys hnodup
            rw [hretain] at hsome
            cases hsome
            exact hwf'

/-- What `slot_leader_at_else_compute` does to the cache: nothing, or what computing the schedule
of the slot's epoch does. -/
theorem slotLeaderAtElseCompute_cache {cache cache' : LeaderScheduleCache} {slot : UInt64}
    {bank : StakesBank} {leader : Option Pubkey}
    (h : cache.slotLeaderAtElseCompute sampler slot bank = some (leader, cache')) :
    cache' = cache ∨ ∃ result, cache.computeEpochSchedule sampler
      (bank.epochSchedule.getEpochAndSlotIndex slot).1 bank = some (result, cache') := by
  unfold slotLeaderAtElseCompute at h
  simp only [Option.bind_eq_bind, Option.bind_eq_some_iff] at h
  obtain ⟨cacheResult, -, h⟩ := h
  split_ifs at h
  · exact Or.inl (Prod.mk.inj (Option.some.inj h)).2.symm
  · exact Or.inl (Prod.mk.inj (Option.some.inj h)).2.symm
  · rw [Option.bind_eq_some_iff] at h
    obtain ⟨⟨result, computed⟩, hc, hmatch⟩ := h
    -- whatever the schedule, the cache is the one computing it left
    have hcache : computed = cache' := by
      cases result with
      | none =>
        simp only [Option.pure_def, Option.some.injEq, Prod.mk.injEq] at hmatch
        exact hmatch.2
      | some schedule =>
        obtain ⟨l, -, hl⟩ := Option.map_eq_some_iff.1 hmatch
        exact (Prod.mk.inj hl).2
    exact Or.inr ⟨result, hcache ▸ hc⟩

/-- `slot_leader_at` with the bank keeps the cache agreeing with it and well formed, with its
schedule of epochs and its `max_epoch`. -/
theorem agrees_slotLeaderAt {cache cache' : LeaderScheduleCache} {slot : UInt64} {bank : StakesBank}
    {leader : Option Pubkey} (hagree : Agrees sampler bank cache)
    (h : cache.slotLeaderAt sampler slot (some bank) = some (leader, cache')) :
    Agrees sampler bank cache' ∧ (cache.WellFormed → cache'.WellFormed) ∧
      cache'.epochSchedule = cache.epochSchedule ∧ cache'.maxEpoch = cache.maxEpoch := by
  rcases slotLeaderAtElseCompute_cache sampler h with rfl | ⟨result, hc⟩
  · exact ⟨hagree, id, rfl, rfl⟩
  · obtain ⟨-, hsched, hmax, hkeep, hwf⟩ := computeEpochSchedule_eq_some sampler hc
    exact ⟨hkeep hagree, hwf, hsched, hmax⟩

/-- While the cache agrees with a bank of its schedule, its answer for a slot of a confirmed epoch
is the bank's. -/
theorem slotLeaderAt_eq_of_agrees {cache : LeaderScheduleCache} {bank : StakesBank}
    (hwf : cache.WellFormed) (hagree : Agrees sampler bank cache)
    (hsched : cache.epochSchedule = bank.epochSchedule) {slot : UInt64} (hconfirmed : (cache.epochSchedule.getEpochAndSlotIndex slot).1 ≤ cache.maxEpoch) :
    (cache.slotLeaderAt sampler slot (some bank)).map Prod.fst =
      Morgan.slotLeaderAt sampler slot bank := by
  rcases hes : bank.epochSchedule.getEpochAndSlotIndex slot with ⟨epoch, slotIndex⟩
  rw [hsched, hes] at hconfirmed
  have hnot : ¬ epoch > cache.maxEpoch := fun hgt => absurd hconfirmed (UInt64.not_le.2 hgt)
  simp only [slotLeaderAt, slotLeaderAtElseCompute, slotLeaderAtNoCompute, Morgan.slotLeaderAt,
    hsched, hes, hnot, if_false, Option.bind_eq_bind]
  cases hget : cache.cachedSchedules.get? epoch with
  | some schedule =>
    -- a cached schedule is the bank's
    rw [hagree epoch schedule hget]
    cases hidx : schedule.index slotIndex <;> simp [hidx]
  | none =>
    cases hls : leaderSchedule sampler epoch bank with
    | none => simp [computeEpochSchedule, hls]
    | some computed =>
      cases computed with
      | none => simp [computeEpochSchedule, hls]
      | some schedule =>
        -- on a well-formed cache, caching the schedule does not panic
        obtain ⟨hkeys, hnodup⟩ := keys_set_of_get?_eq_none hwf.1 hwf.2 hget schedule
        obtain ⟨schedules', order', hretain, -⟩ := retainLatest_eq_some hkeys hnodup
        cases hidx : schedule.index slotIndex <;>
          simp [computeEpochSchedule, hls, hget, hretain, hidx]

/-- The caches a run of `slot_leader_at` calls with one bank goes through. -/
inductive Lookups (bank : StakesBank) : LeaderScheduleCache → LeaderScheduleCache → Prop
  | refl (cache : LeaderScheduleCache) : Lookups bank cache cache
  | step {cache cache' cache'' : LeaderScheduleCache} {slot : UInt64} {leader : Option Pubkey} :
      cache.slotLeaderAt sampler slot (some bank) = some (leader, cache') →
      Lookups bank cache' cache'' → Lookups bank cache cache''

/-- Along a run of lookups with one bank the cache stays well formed and agreeing with the bank,
with its schedule of epochs and `max_epoch`. -/
theorem Lookups.invariant {bank : StakesBank} {cache cache' : LeaderScheduleCache}
    (run : Lookups sampler bank cache cache') (hwf : cache.WellFormed)
    (hagree : Agrees sampler bank cache) :
    cache'.WellFormed ∧ Agrees sampler bank cache' ∧ cache'.epochSchedule = cache.epochSchedule ∧
      cache'.maxEpoch = cache.maxEpoch := by
  induction run with
  | refl cache => exact ⟨hwf, hagree, rfl, rfl⟩
  | step h _ ih =>
    obtain ⟨hagree', hwf', hsched, hmax⟩ := agrees_slotLeaderAt sampler hagree h
    obtain ⟨hwf'', hagree'', hsched', hmax'⟩ := ih (hwf' hwf) hagree'
    exact ⟨hwf'', hagree'', hsched'.trans hsched, hmax'.trans hmax⟩

/-- Asked only with the bank it was built from, the cache answers every slot of a confirmed epoch
as `slot_leader_at` of the bank does, whatever it cached and evicted before. -/
theorem slotLeaderAt_of_lookups {bank : StakesBank} {cache : LeaderScheduleCache}
    (run : Lookups sampler bank (newFromBank bank) cache) {slot : UInt64}
    (hconfirmed : (bank.epochSchedule.getEpochAndSlotIndex slot).1 ≤ bank.getStakersEpoch bank.slot) :
    (cache.slotLeaderAt sampler slot (some bank)).map Prod.fst =
      Morgan.slotLeaderAt sampler slot bank := by
  obtain ⟨hwf, hagree, hsched, hmax⟩ :=
    run.invariant sampler (wellFormed_new _ _) (agrees_new sampler bank _ _)
  refine slotLeaderAt_eq_of_agrees sampler hwf hagree hsched ?_
  rw [hsched, hmax]
  exact hconfirmed

end LeaderScheduleCache

/-- Nodes and a vote account for the runs below. -/
def nodeA : Pubkey := ⟨Vector.replicate 32 1⟩

def nodeB : Pubkey := ⟨Vector.replicate 32 2⟩

def stakedVoteKey : Pubkey := ⟨Vector.replicate 32 3⟩

/-- Stakes of one vote account of stake 1 that votes for `node`. -/
def stakedBy (node : Pubkey) : Stakes :=
  ⟨[(stakedVoteKey, (1, ⟨1, 0, VoteState.serialize (VoteState.new stakedVoteKey node 0), default, false⟩))]⟩

/-- Two genesis banks of `skippingSchedule` staked to different nodes. -/
def bankA : StakesBank := StakesBank.new skippingSchedule (stakedBy nodeA)

def bankB : StakesBank := StakesBank.new skippingSchedule (stakedBy nodeB)

/-- The child of `bankA` at slot 64, which holds stakes for epochs 0, 1 and 3. -/
def bankA64 : StakesBank :=
  ⟨64, skippingSchedule, stakedBy nodeA,
    [(0, stakedBy nodeA), (1, stakedBy nodeA), (3, stakedBy nodeA)]⟩

/-- The cache after `bankA` asked for slot 0. -/
def cacheA : LeaderScheduleCache := ⟨[(0, ⟨List.replicate 32 nodeA⟩)], [0], skippingSchedule, 1⟩

theorem stakedNodesAtEpoch_bankA : stakedNodesAtEpoch bankA 0 = some [(nodeA, 1)] := by decide

theorem stakedNodesAtEpoch_bankB : stakedNodesAtEpoch bankB 0 = some [(nodeB, 1)] := by decide

theorem stakedNodesAtEpoch_bankA64 : stakedNodesAtEpoch bankA64 3 = some [(nodeA, 1)] := by decide

/-- For every draw of the leaders: a cache built from `bankA` caches its schedule of epoch 0 and
answers with it for `bankB`, whose own leader of slot 0 is `nodeB`; and `next_leader_slot` of
`nodeA` after slot 63 of `bankA64` stops at epoch 2, which has no stakes, though `nodeA` leads
slot 96 of epoch 3. -/
theorem leader_cache_diverges_from_bank (sampler : WeightedSampler) :
    (LeaderScheduleCache.newFromBank bankA).slotLeaderAt sampler 0 (some bankA) =
        some (some nodeA, cacheA) ∧
      cacheA.slotLeaderAt sampler 0 (some bankB) = some (some nodeA, cacheA) ∧
      slotLeaderAt sampler 0 bankB = some (some nodeB) ∧
      bankA.newFromParent 64 = some bankA64 ∧
      (LeaderScheduleCache.newFromBank bankA64).nextLeaderSlot sampler nodeA 63 bankA64 =
        some (none, LeaderScheduleCache.newFromBank bankA64) ∧
      slotLeaderAt sampler 96 bankA64 = some (some nodeA) := by
  have hes : skippingSchedule.getEpochAndSlotIndex 0 = (0, 0) := by decide
  have hA := leaderSchedule_single sampler stakedNodesAtEpoch_bankA (by decide)
  refine ⟨?_, ?_, slotLeaderAt_single sampler stakedNodesAtEpoch_bankB (by decide) (by decide),
    by decide, by rfl, slotLeaderAt_single sampler stakedNodesAtEpoch_bankA64 (by decide) (by decide)⟩
  · -- `bankA` computes its schedule of epoch 0 and caches it
    have hnew : LeaderScheduleCache.newFromBank bankA = ⟨[], [], skippingSchedule, 1⟩ := by decide
    have hsched : bankA.epochSchedule = skippingSchedule := rfl
    rw [hnew]
    simp only [LeaderScheduleCache.slotLeaderAt, LeaderScheduleCache.slotLeaderAtElseCompute,
      LeaderScheduleCache.computeEpochSchedule, LeaderScheduleCache.slotLeaderAtNoCompute, hes,
      hsched, hA]
    decide
  · -- `bankB` is answered from the cache
    have hsched : bankB.epochSchedule = skippingSchedule := rfl
    simp only [LeaderScheduleCache.slotLeaderAt, LeaderScheduleCache.slotLeaderAtElseCompute,
      LeaderScheduleCache.slotLeaderAtNoCompute, cacheA, hes, hsched]
    rfl

end Morgan
