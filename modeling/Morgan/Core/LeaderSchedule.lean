import Morgan.Runtime.EpochStakes

/-!
# Leader schedules

`leaderArrange.rs` and `leaderArrangeUtils.rs`: the leader schedule of an epoch is drawn from the
stakes a bank saved for it.  `staked_nodes_at_epoch` sums the stakes of the vote accounts per
node, `sort_stakes` orders them by stake and key, and `LeaderSchedule::new` draws a leader every
`NUM_CONSECUTIVE_LEADER_SLOTS` slots, weighted by stake.  `slot_leader_at` reads the schedule of a
slot's epoch at the slot's index.

The draws (`WeightedIndex` sampled with a `ChaChaRng` seeded by the epoch) are a parameter,
`WeightedSampler`, of which only one property is used: a draw is an index of the weights.  So a
node that holds all the stake leads every slot (`new_single`, `slotLeaderAt_single`).
-/

namespace Morgan

open Rust Bincode

/-- `NUM_CONSECUTIVE_LEADER_SLOTS`. -/
def NUM_CONSECUTIVE_LEADER_SLOTS : UInt64 := 8

/-- The stake-weighted draws of `LeaderSchedule::new`: `sample seed stakes k` is the index the
`k`-th draw of `WeightedIndex::new(stakes)` picks with the generator seeded by `seed`.  A draw is
an index of the weights. -/
structure WeightedSampler where
  sample : List UInt8 → List UInt64 → Nat → Nat
  sample_lt : ∀ seed stakes k, stakes ≠ [] → sample seed stakes k < stakes.length

/-- `LeaderSchedule`. -/
structure LeaderSchedule where
  slotLeaders : List Pubkey
  deriving DecidableEq, Repr

namespace LeaderSchedule

variable (sampler : WeightedSampler)

/-- One slot `i` of `LeaderSchedule::new`'s loop, with the current leader and the number of draws
made: at every `repeats`-th slot a leader is drawn.  `none` is the panic of `i % repeats` with
`repeats = 0`, or of an index past the ids. -/
def drawLeader (ids : List Pubkey) (stakes : List UInt64) (seed : List UInt8) (repeats i : UInt64)
    (state : Pubkey × Nat) : Option (Pubkey × Nat) :=
  if repeats = 0 then none
  else if i % repeats = 0 then (ids[sampler.sample seed stakes state.2]?).map fun id => (id, state.2 + 1)
  else some state

/-- The leaders of the slots `i, i + 1, …` of the loop, from a state. -/
def slotLeadersFrom (ids : List Pubkey) (stakes : List UInt64) (seed : List UInt8) (repeats : UInt64) :
    List UInt64 → Pubkey × Nat → Option (List Pubkey)
  | [], _ => some []
  | i :: is, state => do
    let state ← drawLeader sampler ids stakes seed repeats i state
    let leaders ← slotLeadersFrom ids stakes seed repeats is state
    pure (state.1 :: leaders)

theorem slotLeadersFrom_cons (ids : List Pubkey) (stakes : List UInt64) (seed : List UInt8)
    (repeats i : UInt64) (is : List UInt64) (state : Pubkey × Nat) :
    slotLeadersFrom sampler ids stakes seed repeats (i :: is) state =
      (drawLeader sampler ids stakes seed repeats i state).bind fun state =>
        (slotLeadersFrom sampler ids stakes seed repeats is state).bind fun leaders =>
          some (state.1 :: leaders) := rfl

/-- `LeaderSchedule::new`; `none` is a panic: of `WeightedIndex::new(stakes).unwrap()` when there
are no stakes or their (wrapping) total is zero, or of the loop. -/
def new (idsAndStakes : List (Pubkey × UInt64)) (seed : List UInt8) (len repeats : UInt64) :
    Option LeaderSchedule :=
  let (ids, stakes) := idsAndStakes.unzip
  if stakes = [] ∨ stakes.foldl (· + ·) 0 = 0 then none
  else
    (slotLeadersFrom sampler ids stakes seed repeats
      ((List.range len.toNat).map UInt64.ofNat) (default, 0)).map LeaderSchedule.mk

/-- `Index<u64>`: the leader at an index, modulo the schedule's length; `none` is the panic of
`% 0` on an empty schedule. -/
def index (schedule : LeaderSchedule) (index : UInt64) : Option Pubkey :=
  if schedule.slotLeaders.length = 0 then none
  else schedule.slotLeaders[index.toNat % schedule.slotLeaders.length]?

/-- With a single id every draw picks it. -/
theorem drawLeader_single {id : Pubkey} {stake : UInt64} {seed : List UInt8} {repeats : UInt64}
    (hrepeats : repeats ≠ 0) (i : UInt64) (state : Pubkey × Nat) :
    drawLeader sampler [id] [stake] seed repeats i state =
      some (if i % repeats = 0 then (id, state.2 + 1) else state) := by
  have h0 : sampler.sample seed [stake] state.2 = 0 := by
    have := sampler.sample_lt seed [stake] state.2 (List.cons_ne_nil _ _)
    simp only [List.length_singleton] at this
    omega
  unfold drawLeader
  rw [if_neg hrepeats]
  split_ifs <;> simp [h0]

/-- Once the single id leads, it leads every later slot of the loop. -/
theorem slotLeadersFrom_single {id : Pubkey} {stake : UInt64} {seed : List UInt8}
    {repeats : UInt64} (hrepeats : repeats ≠ 0) :
    ∀ (is : List UInt64) (state : Pubkey × Nat), state.1 = id →
      slotLeadersFrom sampler [id] [stake] seed repeats is state = some (List.replicate is.length id)
  | [], _, _ => rfl
  | i :: is, state, hstate => by
    have hnext : (if i % repeats = 0 then (id, state.2 + 1) else state).1 = id := by
      split_ifs
      · rfl
      · exact hstate
    simp only [slotLeadersFrom_cons, drawLeader_single sampler hrepeats,
      Option.bind_some, slotLeadersFrom_single hrepeats is _ hnext, List.length_cons,
      List.replicate_succ, hnext]

/-- A node that holds all the stake leads every slot. -/
theorem new_single {id : Pubkey} {stake : UInt64} (hstake : stake ≠ 0) (seed : List UInt8)
    (len : UInt64) {repeats : UInt64} (hrepeats : repeats ≠ 0) :
    new sampler [(id, stake)] seed len repeats = some ⟨List.replicate len.toNat id⟩ := by
  -- slot 0 draws the first leader, who leads every slot
  have hleaders : slotLeadersFrom sampler [id] [stake] seed repeats
      ((List.range len.toNat).map UInt64.ofNat) (default, 0) = some (List.replicate len.toNat id) := by
    cases len.toNat with
    | zero => rfl
    | succ n =>
      have hfirst : drawLeader sampler [id] [stake] seed repeats (UInt64.ofNat 0) (default, 0) =
          some (id, 1) := by
        rw [drawLeader_single sampler hrepeats, if_pos (by simp)]
      rw [List.range_succ_eq_map, List.map_cons]
      simp only [slotLeadersFrom_cons, hfirst, Option.bind_some,
        slotLeadersFrom_single sampler hrepeats _ (id, 1) rfl, List.length_map, List.length_range,
        List.replicate_succ]
  simp [new, hstake, hleaders]

end LeaderSchedule

/-! ## Leader schedules from a bank -/

/-- `to_vote_states`: the stake and vote state of each vote account whose data decodes. -/
def toVoteStates (nodeStakedAccounts : AssocMap Pubkey (UInt64 × Account)) :
    List (UInt64 × VoteState) :=
  nodeStakedAccounts.filterMap fun (_, stake, account) =>
    (Bincode.deserialize VoteState.deserialize account.data).map fun voteState => (stake, voteState)

/-- `to_staked_nodes`: the stakes summed per node, with the wrapping `+=` of a release build. -/
def toStakedNodes (nodeStakedAccounts : List (UInt64 × VoteState)) : AssocMap Pubkey UInt64 :=
  nodeStakedAccounts.foldl (fun map (stake, state) =>
    match map.get? state.nodePubkey with
    | some _ => map.modify state.nodePubkey (· + stake)
    | none => map.set state.nodePubkey stake) []

/-- `staked_nodes_at_epoch`. -/
def stakedNodesAtEpoch (bank : StakesBank) (epochHeight : UInt64) : Option (AssocMap Pubkey UInt64) :=
  (bank.epochVoteAccounts epochHeight).map fun voteAccounts =>
    toStakedNodes (toVoteStates voteAccounts)

/-- `vote_account_stakes_at_epoch`: the stake of each vote account of the epoch, collected into a
map. -/
def voteAccountStakesAtEpoch (bank : StakesBank) (epochHeight : UInt64) :
    Option (AssocMap Pubkey Nat) :=
  (bank.epochVoteAccounts epochHeight).map fun accounts =>
    AssocMap.extend [] (accounts.map fun (id, stake, _) => (id, stake.toNat))

theorem nodup_voteAccountStakesAtEpoch {bank : StakesBank} {epochHeight : UInt64}
    {stakes : AssocMap Pubkey Nat} (h : voteAccountStakesAtEpoch bank epochHeight = some stakes) :
    stakes.keys.Nodup := by
  obtain ⟨accounts, -, rfl⟩ := Option.map_eq_some_iff.1 h
  exact AssocMap.nodup_keys_extend (m := []) List.nodup_nil _

/-- The comparator of `sort_stakes`: larger stakes first, and of equal stakes the larger key. -/
def stakesOrder (l r : Pubkey × UInt64) : Ordering :=
  if r.2 = l.2 then compare r.1.bytes.toList l.1.bytes.toList else compare r.2 l.2

/-- `sort_stakes`: sorted by `stakesOrder`, then `dedup` of equal neighbours. -/
def sortStakes (stakes : List (Pubkey × UInt64)) : List (Pubkey × UInt64) :=
  (stakes.mergeSort fun l r => stakesOrder l r != .gt).destutter (· ≠ ·)

/-- `leader_schedule`; the outer `none` is a panic of `LeaderSchedule::new`, the inner one an
epoch the bank has no stakes for. -/
def leaderSchedule (sampler : WeightedSampler) (epochHeight : UInt64) (bank : StakesBank) :
    Option (Option LeaderSchedule) :=
  match stakedNodesAtEpoch bank epochHeight with
  | none => some none
  | some stakes =>
    let seed := encodeU64 epochHeight ++ List.replicate 24 0
    (LeaderSchedule.new sampler (sortStakes stakes) seed
      (bank.epochSchedule.getSlotsInEpoch epochHeight) NUM_CONSECUTIVE_LEADER_SLOTS).map some

/-- `slot_leader_at`; the outer `none` is a panic. -/
def slotLeaderAt (sampler : WeightedSampler) (slot : UInt64) (bank : StakesBank) :
    Option (Option Pubkey) :=
  let (epoch, slotIndex) := bank.epochSchedule.getEpochAndSlotIndex slot
  match leaderSchedule sampler epoch bank with
  | none => none
  | some none => some none
  | some (some schedule) => (schedule.index slotIndex).map some

/-- The schedule of an epoch whose stakes are one node's is that node in every slot. -/
theorem leaderSchedule_single (sampler : WeightedSampler) {bank : StakesBank} {epoch : UInt64}
    {id : Pubkey} {stake : UInt64} (hstakes : stakedNodesAtEpoch bank epoch = some [(id, stake)])
    (hstake : stake ≠ 0) :
    leaderSchedule sampler epoch bank =
      some (some ⟨List.replicate (bank.epochSchedule.getSlotsInEpoch epoch).toNat id⟩) := by
  have hsorted : sortStakes [(id, stake)] = [(id, stake)] := by
    simp [sortStakes, List.mergeSort_singleton, List.destutter_singleton]
  rw [leaderSchedule, hstakes]
  dsimp only
  rw [hsorted, LeaderSchedule.new_single sampler hstake _ _ (by decide)]
  rfl

/-- In an epoch whose stakes are one node's, that node leads every slot. -/
theorem slotLeaderAt_single (sampler : WeightedSampler) {bank : StakesBank} {slot : UInt64}
    {id : Pubkey} {stake : UInt64}
    (hstakes : stakedNodesAtEpoch bank (bank.epochSchedule.getEpochAndSlotIndex slot).1 =
      some [(id, stake)])
    (hstake : stake ≠ 0)
    (hlen : bank.epochSchedule.getSlotsInEpoch (bank.epochSchedule.getEpochAndSlotIndex slot).1 ≠ 0) :
    slotLeaderAt sampler slot bank = some (some id) := by
  have hlen' : (bank.epochSchedule.getSlotsInEpoch
      (bank.epochSchedule.getEpochAndSlotIndex slot).1).toNat ≠ 0 := by
    intro h
    exact hlen (UInt64.toNat_inj.1 (by rw [h]; rfl))
  unfold slotLeaderAt
  generalize bank.epochSchedule.getEpochAndSlotIndex slot = epochAndIndex at hstakes hlen' ⊢
  obtain ⟨epoch, slotIndex⟩ := epochAndIndex
  dsimp only at hstakes hlen' ⊢
  rw [leaderSchedule_single sampler hstakes hstake]
  simp [LeaderSchedule.index, hlen', Nat.mod_lt _ (Nat.pos_of_ne_zero hlen')]

end Morgan
