import Mathlib
import Morgan.Core.LocktowerStake
import Morgan.Controllers.VoteStateProof

/-!
# The stake on a fork

`collect_vote_lockouts` puts the epoch stake of each staked vote account on the vote its tower
still holds at the bank's slot (`lockedVote`: the top of the tower once the lockouts expired by
then are popped) and on that vote's ancestors.  On a bank whose vote accounts all voted below its
slot it returns, and the stake on each slot is the sum of the stakes the accounts put on it
(`collectVoteLockouts_stake`); it panics exactly when a staked account has voted past the bank's
slot (`collectVoteLockouts_eq_none_iff`).

`VOTE_THRESHOLD_SIZE` is the double just below two thirds.  A stake of at most a total below
`2 ^ 53` exceeds it exactly when it is more than two thirds of the total (`exceedsThreshold_iff`):
the conversions to `f64` are exact there, and the quotient rounds above the threshold exactly from
two thirds on.  Past `2 ^ 53` this fails: exactly two thirds of `2 ^ 53 + 1` passes.  So on such a
bank a slot is confirmed exactly when the vote accounts put more than two thirds of the epoch's
stake on it (`slot_confirmed_iff_two_thirds`), and the tower passes the vote threshold exactly
when they put more than two thirds on the vote `threshold_depth` deep in it
(`vote_threshold_iff_two_thirds`).
-/

namespace Morgan

open Rust

/-! ## The replayed vote -/

namespace VoteState

/-- The slot `position` places under the top of the tower. -/
theorem slot_nthRecentVote (s : VoteState) (position : Nat) :
    (s.nthRecentVote position).map (·.slot) = (s.votes.map (·.slot)).reverse[position]? := by
  unfold nthRecentVote
  rw [← List.map_reverse, List.getElem?_map]
  split_ifs with h
  · rw [List.getElem?_reverse h]
  · rw [List.getElem?_eq_none (by simpa using h)]

/-- The root promotion keeps the top of the tower. -/
theorem getLast?_promoteRoot (s : VoteState) (votes : List Lockout) :
    (promoteRoot s votes).votes.getLast? = votes.getLast? := by
  rcases promoteRoot_cases s votes with ⟨h, _⟩ | ⟨v, rest, rfl, hfull, h⟩
  · rw [h]
  · rw [h]
    obtain ⟨w, rest', rfl⟩ : ∃ w rest', rest = w :: rest' := by
      cases rest with
      | nil => simp [MAX_LOCKOUT_HISTORY] at hfull
      | cons w rest' => exact ⟨w, rest', rfl⟩
    rw [List.getLast?_cons_cons]

/-- A vote on a slot the tower has reached is ignored. -/
theorem processSlotVoteUnchecked_of_le {s : VoteState} {slot : Slot} {top : Lockout}
    (htop : s.votes.getLast? = some top) (h : slot ≤ top.slot) :
    s.processSlotVoteUnchecked slot = s := by
  unfold processSlotVoteUnchecked processVoteUnchecked processVote
  rw [if_pos (by simp [htop, h])]

/-- A vote on a slot past the top of the tower goes on top of what the expired lockouts and the
root promotion leave. -/
theorem map_slot_processSlotVoteUnchecked_of_lt {s : VoteState} {slot : Slot}
    (h : ∀ top, s.votes.getLast? = some top → top.slot < slot) :
    (s.processSlotVoteUnchecked slot).votes.map (·.slot) =
      (promoteRoot s (popExpiredVotes s.votes slot)).votes.map (·.slot) ++ [slot] := by
  have hnew : ¬ s.votes.getLast?.any (fun old => decide (slot ≤ old.slot)) = true := by
    cases htop : s.votes.getLast? with
    | none => simp
    | some top => simpa using h top htop
  unfold processSlotVoteUnchecked processVoteUnchecked processVote
  rw [if_neg hnew, if_neg (by simp)]
  simp only [map_slot_doubleLockouts, List.map_append, List.map_cons, List.map_nil]
  rfl

/-- The replayed vote is on top unless the tower has voted past it. -/
theorem slot_nthRecentVote_zero_processSlotVoteUnchecked (s : VoteState) (slot : Slot) :
    ((s.processSlotVoteUnchecked slot).nthRecentVote 0).map (·.slot) = some slot ↔
      ∀ top, s.votes.getLast? = some top → top.slot ≤ slot := by
  by_cases hlt : ∀ top, s.votes.getLast? = some top → top.slot < slot
  · rw [slot_nthRecentVote, map_slot_processSlotVoteUnchecked_of_lt hlt]
    simp only [List.reverse_append, List.reverse_cons, List.reverse_nil, List.nil_append,
      List.cons_append, List.getElem?_cons_zero, true_iff]
    exact fun top htop => UInt64.le_of_lt (hlt top htop)
  · simp only [not_forall] at hlt
    obtain ⟨top, htop, hnlt⟩ := hlt
    have hle : slot ≤ top.slot := (UInt64.lt_or_le top.slot slot).resolve_left hnlt
    rw [processSlotVoteUnchecked_of_le htop hle, slot_nthRecentVote, ← List.head?_eq_getElem?,
      List.head?_reverse, List.getLast?_map, htop]
    simp only [Option.map_some, Option.some.injEq, forall_eq']
    exact ⟨fun h => h ▸ UInt64.le_refl _, fun h => UInt64.le_antisymm h hle⟩

end VoteState

/-- The vote a tower's stake weighs at `bank_slot`: its top once the lockouts expired by then are
popped. -/
def lockedVote (voteState : VoteState) (bankSlot : Slot) : Option Lockout :=
  (VoteState.popExpiredVotes voteState.votes bankSlot).getLast?

/-- Under the replayed vote lies the locked vote. -/
theorem slot_nthRecentVote_one_processSlotVoteUnchecked {s : VoteState} {slot : Slot}
    (h : ∀ top, s.votes.getLast? = some top → top.slot < slot) :
    ((s.processSlotVoteUnchecked slot).nthRecentVote 1).map (·.slot) =
      (lockedVote s slot).map (·.slot) := by
  rw [VoteState.slot_nthRecentVote, VoteState.map_slot_processSlotVoteUnchecked_of_lt h]
  simp only [List.reverse_append, List.reverse_cons, List.reverse_nil, List.nil_append,
    List.cons_append, List.getElem?_cons_succ, ← List.head?_eq_getElem?, List.head?_reverse,
    List.getLast?_map, VoteState.getLast?_promoteRoot, lockedVote]

/-! ## The ancestor updates -/

namespace StakeLockouts

@[simp] theorem entry_nil (slot : Slot) : StakeLockouts.entry [] slot = default := rfl

@[simp] theorem entry_set_self (m : StakeLockouts) (slot : Slot) (e : StakeLockout) :
    StakeLockouts.entry (m.set slot e) slot = e := by
  simp [StakeLockouts.entry]

theorem entry_set_of_ne (m : StakeLockouts) {slot slot' : Slot} (h : slot' ≠ slot)
    (e : StakeLockout) : StakeLockouts.entry (m.set slot e) slot' = m.entry slot' := by
  simp [StakeLockouts.entry, AssocMap.get?_set_of_ne _ h]

end StakeLockouts

/-- The loop of the ancestor updates adds `c` to a field of an entry once for each time its slot
is listed. -/
theorem updateEntries_field (p : StakeLockout → Nat) (f : StakeLockout → StakeLockout) (c : Nat)
    (hf : ∀ e, p (f e) = p e + c) (m : StakeLockouts) (slots : List Slot) (slot : Slot) :
    p ((updateEntries m slots f).entry slot) = p (m.entry slot) + slots.count slot * c := by
  induction slots generalizing m with
  | nil => simp [updateEntries]
  | cons s slots ih =>
    rw [updateEntries, List.foldl_cons, ← updateEntries, ih, List.count_cons]
    by_cases hs : slot = s
    · subst hs
      rw [StakeLockouts.entry_set_self, hf]
      simp only [beq_self_eq_true, if_true]
      ring
    · rw [StakeLockouts.entry_set_of_ne _ hs]
      simp [Ne.symm hs]

@[simp] theorem stake_updateAncestorLockouts (m : StakeLockouts) (vote : Lockout)
    (ancestors : AncestorsMap) (slot : Slot) :
    ((updateAncestorLockouts m vote ancestors).entry slot).stake = (m.entry slot).stake := by
  have h := updateEntries_field StakeLockout.stake
    (fun e => { e with lockout := e.lockout + vote.lockout.toNat }) 0 (fun _ => rfl) m
    (slotWithAncestors ancestors vote.slot) slot
  rwa [Nat.mul_zero, Nat.add_zero] at h

theorem stake_updateAncestorStakes (m : StakeLockouts) (voteSlot : Slot) (difs : Nat)
    (ancestors : AncestorsMap) (slot : Slot) :
    ((updateAncestorStakes m voteSlot difs ancestors).entry slot).stake =
      (m.entry slot).stake + (slotWithAncestors ancestors voteSlot).count slot * difs :=
  updateEntries_field StakeLockout.stake (fun e => { e with stake := e.stake + difs }) difs
    (fun _ => rfl) m _ slot

namespace StakedLocktower

/-- The lockouts of a replayed tower leave the stakes as they are. -/
@[simp] theorem stake_addTowerLockouts (m : StakeLockouts) (startRoot : Option Slot)
    (voteState : VoteState) (ancestors : AncestorsMap) (slot : Slot) :
    ((addTowerLockouts m startRoot voteState ancestors).entry slot).stake =
      (m.entry slot).stake := by
  have hvotes : ∀ (votes : List Lockout) (m : StakeLockouts),
      ((votes.foldl (fun m vote => updateAncestorLockouts m vote ancestors) m).entry
        slot).stake = (m.entry slot).stake := by
    intro votes
    induction votes with
    | nil => exact fun _ => rfl
    | cons vote votes ih => exact fun m => by rw [List.foldl_cons, ih, stake_updateAncestorLockouts]
  unfold addTowerLockouts
  dsimp only
  split <;> split_ifs <;> (try split) <;> simp [hvotes]

/-! ## The stake a vote account puts on a slot -/

/-- The stake a vote account puts on `slot`: its epoch stake, once for each time `slot` is the
slot of its locked vote or an ancestor of it. -/
def stakeOn (epochStakes : EpochStakes) (bankSlot : Slot) (ancestors : AncestorsMap)
    (slot : Slot) (voteAccount : Pubkey × (UInt64 × Account)) : Nat :=
  match (VoteState.fromAccount voteAccount.2.2).bind (lockedVote · bankSlot) with
  | some vote =>
    (slotWithAncestors ancestors vote.slot).count slot *
      (epochStakes.stakes.get? voteAccount.1).getD 0
  | none => 0

/-- A vote account whose tower, where its state decodes, holds only votes below `bank_slot`. -/
def votedBelow (bankSlot : Slot) (voteAccount : Pubkey × (UInt64 × Account)) : Bool :=
  match VoteState.fromAccount voteAccount.2.2 with
  | some voteState => voteState.votes.all (·.slot < bankSlot)
  | none => true

/-- A vote account that `collect_vote_lockouts` panics on: staked, with a tower whose top is past
`bank_slot`. -/
def votedPast (epochStakes : EpochStakes) (bankSlot : Slot)
    (voteAccount : Pubkey × (UInt64 × Account)) : Bool :=
  decide ((epochStakes.stakes.get? voteAccount.1).getD 0 ≠ 0) &&
    match VoteState.fromAccount voteAccount.2.2 with
    | some voteState => voteState.votes.getLast?.any (bankSlot < ·.slot)
    | none => false

section Collect

variable (t : StakedLocktower) (bankSlot : Slot) (ancestors : AncestorsMap)

/-- One vote account's turn of `collect_vote_lockouts` adds the stake the account puts on each
slot. -/
theorem collectVoteLockout_stake (m : StakeLockouts) {voteAccount : Pubkey × (UInt64 × Account)}
    (hbelow : votedBelow bankSlot voteAccount = true) :
    ∃ m', t.collectVoteLockout bankSlot ancestors m voteAccount = some m' ∧
      ∀ slot, (m'.entry slot).stake =
        (m.entry slot).stake + stakeOn t.epochStakes bankSlot ancestors slot voteAccount := by
  obtain ⟨key, stake, account⟩ := voteAccount
  unfold collectVoteLockout
  dsimp only
  by_cases hdifs : (t.epochStakes.stakes.get? key).getD 0 = 0
  · refine ⟨m, if_pos hdifs, fun slot => ?_⟩
    unfold stakeOn
    split <;> simp [hdifs]
  rw [if_neg hdifs]
  cases hstate : VoteState.fromAccount account with
  | none => exact ⟨m, rfl, fun slot => by simp [stakeOn, hstate]⟩
  | some voteState =>
    have hlt : ∀ top, voteState.votes.getLast? = some top → top.slot < bankSlot := by
      intro top htop
      simp only [votedBelow, hstate, List.all_eq_true, decide_eq_true_eq] at hbelow
      exact hbelow top (List.mem_of_getLast? htop)
    have hzero := (VoteState.slot_nthRecentVote_zero_processSlotVoteUnchecked voteState
      bankSlot).2 fun top htop => UInt64.le_of_lt (hlt top htop)
    have hone := slot_nthRecentVote_one_processSlotVoteUnchecked hlt
    simp only [hzero, ne_eq, not_true_eq_false, if_false]
    cases hvote : (voteState.processSlotVoteUnchecked bankSlot).nthRecentVote 1 with
    | none =>
      rw [hvote, Option.map_none] at hone
      refine ⟨_, rfl, fun slot => ?_⟩
      simp [stakeOn, hstate, Option.map_eq_none_iff.1 hone.symm]
    | some vote =>
      rw [hvote, Option.map_some] at hone
      obtain ⟨v, hv, hslot⟩ := Option.map_eq_some_iff.1 hone.symm
      refine ⟨_, rfl, fun slot => ?_⟩
      simp [stakeOn, hstate, hv, stake_updateAncestorStakes, hslot]

/-- The loop of `collect_vote_lockouts` adds the stakes all the vote accounts put on each slot. -/
theorem foldlM_collectVoteLockout_stake (voteAccounts : List (Pubkey × (UInt64 × Account)))
    (hbelow : ∀ voteAccount ∈ voteAccounts, votedBelow bankSlot voteAccount = true)
    (m : StakeLockouts) :
    ∃ m', voteAccounts.foldlM (t.collectVoteLockout bankSlot ancestors) m = some m' ∧
      ∀ slot, (m'.entry slot).stake = (m.entry slot).stake +
        (voteAccounts.map (stakeOn t.epochStakes bankSlot ancestors slot)).sum := by
  induction voteAccounts generalizing m with
  | nil => exact ⟨m, rfl, fun _ => by simp⟩
  | cons voteAccount voteAccounts ih =>
    obtain ⟨m₁, hstep, hm₁⟩ :=
      t.collectVoteLockout_stake bankSlot ancestors m (hbelow voteAccount List.mem_cons_self)
    obtain ⟨m₂, hrun, hm₂⟩ := ih (fun a ha => hbelow a (List.mem_cons_of_mem _ ha)) m₁
    refine ⟨m₂, by simp [hstep, hrun], fun slot => ?_⟩
    rw [hm₂, hm₁, List.map_cons, List.sum_cons]
    ring

/-- A vote account with the whole stake of an epoch, whose tower voted on slot 1. -/
def soleVoter : Pubkey × (UInt64 × Account) :=
  (default, (100, { (default : Account) with
    data := VoteState.serialize { VoteState.default with votes := [⟨1, 1⟩] } }))

/-- A locktower of that epoch, with an empty tower. -/
def soleVoterLocktower : StakedLocktower :=
  StakedLocktower.new (EpochStakes.new 0 [(default, 100)] (by decide)) 0 VOTE_THRESHOLD_SIZE

/-- The ancestors of the chain `0, 1, 2`. -/
def chainAncestors : AncestorsMap := fun slot =>
  if slot = 1 then some ⟨[0], by decide⟩ else if slot = 2 then some ⟨[1, 0], by decide⟩ else none

theorem chainAncestors_not_mem : ∀ slot a, chainAncestors slot = some a → slot ∉ a.1 := by
  intro slot a h
  unfold chainAncestors at h
  split_ifs at h with h1 h2 <;> cases h <;> subst_vars <;> decide

/-- One vote account's turn panics exactly on an account that has voted past the bank. -/
theorem collectVoteLockout_eq_none_iff (m : StakeLockouts)
    (voteAccount : Pubkey × (UInt64 × Account)) :
    t.collectVoteLockout bankSlot ancestors m voteAccount = none ↔
      votedPast t.epochStakes bankSlot voteAccount = true := by
  obtain ⟨key, stake, account⟩ := voteAccount
  unfold collectVoteLockout votedPast
  dsimp only
  by_cases hdifs : (t.epochStakes.stakes.get? key).getD 0 = 0
  · simp [hdifs]
  rw [if_neg hdifs]
  cases hstate : VoteState.fromAccount account with
  | none => simp
  | some voteState =>
    have hiff := VoteState.slot_nthRecentVote_zero_processSlotVoteUnchecked voteState bankSlot
    simp only [hdifs, ne_eq, not_false_eq_true, decide_true, Bool.true_and]
    by_cases hc : ((voteState.processSlotVoteUnchecked bankSlot).nthRecentVote 0).map (·.slot) =
      some bankSlot
    · have hle := hiff.1 hc
      rw [if_neg (not_not.2 hc)]
      constructor
      · intro h
        split at h <;> cases h
      · intro h
        obtain ⟨top, htop, hpast⟩ : ∃ top, voteState.votes.getLast? = some top ∧
            bankSlot < top.slot := by
          cases htop : voteState.votes.getLast? with
          | none => simp [htop] at h
          | some top => exact ⟨top, rfl, by simpa [htop] using h⟩
        exact absurd (hle top htop) (UInt64.not_le.2 hpast)
    · rw [if_pos hc]
      simp only [true_iff]
      rw [hiff] at hc
      simp only [not_forall] at hc
      obtain ⟨top, htop, hnle⟩ := hc
      simp [htop, (UInt64.lt_or_le bankSlot top.slot).resolve_right hnle]

/-- The loop panics exactly when one of the vote accounts has voted past the bank. -/
theorem foldlM_collectVoteLockout_eq_none_iff (voteAccounts : List (Pubkey × (UInt64 × Account)))
    (m : StakeLockouts) :
    voteAccounts.foldlM (t.collectVoteLockout bankSlot ancestors) m = none ↔
      ∃ voteAccount ∈ voteAccounts, votedPast t.epochStakes bankSlot voteAccount = true := by
  induction voteAccounts generalizing m with
  | nil => simp
  | cons voteAccount voteAccounts ih =>
    rw [List.foldlM_cons]
    cases hstep : t.collectVoteLockout bankSlot ancestors m voteAccount with
    | none =>
      have hpast := (t.collectVoteLockout_eq_none_iff bankSlot ancestors m voteAccount).1 hstep
      simp only [Option.bind_eq_bind, Option.bind_none, true_iff]
      exact ⟨voteAccount, List.mem_cons_self, hpast⟩
    | some m₁ =>
      have hnot : ¬ votedPast t.epochStakes bankSlot voteAccount = true := fun hpast =>
        absurd ((t.collectVoteLockout_eq_none_iff bankSlot ancestors m voteAccount).2 hpast)
          (by simp [hstep])
      simp only [Option.bind_eq_bind, Option.bind_some, ih, List.mem_cons, exists_eq_or_imp, hnot,
        Bool.false_eq_true, false_or]

theorem collectVoteLockouts_eq_none_iff (voteAccounts : List (Pubkey × (UInt64 × Account))) :
    t.collectVoteLockouts bankSlot voteAccounts ancestors = none ↔
      ∃ voteAccount ∈ voteAccounts, votedPast t.epochStakes bankSlot voteAccount = true :=
  t.foldlM_collectVoteLockout_eq_none_iff bankSlot ancestors voteAccounts []

end Collect

/-! ## The two-thirds threshold -/

/-- `VOTE_THRESHOLD_SIZE` is the double `6004799503160661 / 2 ^ 53`, just below two thirds. -/
theorem VOTE_THRESHOLD_SIZE_val : VOTE_THRESHOLD_SIZE.val = 6004799503160661 / 2 ^ 53 := by
  have hnum : ((2 : ℚ) / 3).num = 2 := by norm_num
  have hden : ((2 : ℚ) / 3).den = 3 := by norm_num
  have hround : roundHalfEven (2 * 2 ^ 53) 3 = 6004799503160661 := by decide
  show roundToDouble ((F64.ofNat 2).val / (F64.ofNat 3).val) = _
  rw [F64.val_ofNat (by norm_num), F64.val_ofNat (by norm_num), Nat.cast_ofNat, Nat.cast_ofNat,
    roundToDouble_of_nonneg (by norm_num), hnum, hden, show Int.toNat 2 = 2 from rfl,
    roundPos_of_half_le (by norm_num) (by norm_num), hround]
  norm_num

theorem VOTE_THRESHOLD_SIZE_nonneg : 0 ≤ VOTE_THRESHOLD_SIZE.val := by
  rw [VOTE_THRESHOLD_SIZE_val]
  positivity

/-- A stake of nothing does not exceed a threshold of at least zero. -/
theorem exceedsThreshold_zero {thresholdSize : F64} (h : 0 ≤ thresholdSize.val)
    (totalStaked : Nat) : exceedsThreshold 0 totalStaked thresholdSize = false := by
  have hzero : (F64.ofNat 0 / F64.ofNat totalStaked).val = 0 := by
    show roundToDouble ((F64.ofNat 0).val / (F64.ofNat totalStaked).val) = 0
    rw [F64.val_ofNat (by norm_num), Nat.cast_zero, zero_div]
    simpa [F64.ofNat, F64.ofRat] using @F64.val_ofNat 0 (by norm_num)
  unfold exceedsThreshold
  rw [decide_eq_false_iff_not]
  show ¬ thresholdSize.val < (F64.ofNat 0 / F64.ofNat totalStaked).val
  rw [hzero]
  exact not_lt.2 h

/-- A stake of at most a total below `2 ^ 53` exceeds `VOTE_THRESHOLD_SIZE` exactly when it is more
than two thirds of the total: below `2 ^ 53` the conversions are exact, and the quotient rounds
above the threshold exactly when it lies above two thirds. -/
theorem exceedsThreshold_iff {stake totalStaked : Nat} (hstake : stake ≤ totalStaked)
    (htotal : totalStaked < 2 ^ 53) :
    exceedsThreshold stake totalStaked VOTE_THRESHOLD_SIZE = true ↔
      2 * totalStaked < 3 * stake := by
  rcases Nat.eq_zero_or_pos totalStaked with rfl | hpos
  · obtain rfl : stake = 0 := by omega
    rw [exceedsThreshold_zero VOTE_THRESHOLD_SIZE_nonneg]
    decide
  have ht : (0 : ℚ) < totalStaked := by exact_mod_cast hpos
  have hval : (F64.ofNat stake / F64.ofNat totalStaked).val =
      roundToDouble ((stake : ℚ) / totalStaked) := by
    show roundToDouble ((F64.ofNat stake).val / (F64.ofNat totalStaked).val) = _
    rw [F64.val_ofNat (by omega), F64.val_ofNat htotal]
  unfold exceedsThreshold
  rw [decide_eq_true_iff]
  show VOTE_THRESHOLD_SIZE.val < (F64.ofNat stake / F64.ofNat totalStaked).val ↔ _
  rw [hval, VOTE_THRESHOLD_SIZE_val]
  have hq1 : (stake : ℚ) / totalStaked ≤ 1 := by
    rw [div_le_one ht]
    exact_mod_cast hstake
  rcases lt_or_ge ((stake : ℚ) / totalStaked) (1 / 2) with hlow | hhalf
  · -- below one half: the quotient rounds to at most one half, under the threshold
    have hround := roundToDouble_le_half (by positivity) hlow
    rw [div_lt_iff₀ ht] at hlow
    constructor
    · intro h
      norm_num at h
      linarith
    · intro h
      have : (2 * totalStaked : ℚ) < 3 * stake := by exact_mod_cast h
      linarith
  rcases lt_or_eq_of_le hq1 with hlt | heq
  · -- on `[1/2, 1)`: the quotient passes the threshold from the midpoint above it on
    have key := @lt_roundToDouble_iff _ 6004799503160661 hhalf hlt (by decide)
    rw [Nat.cast_ofNat] at key
    rw [key, div_le_div_iff₀ (by positivity) ht]
    constructor <;> intro h
    · have hq : ((12009599006321323 * totalStaked : ℕ) : ℚ) ≤ (stake * 18014398509481984 : ℕ) := by
        push_cast
        linarith
      have : 12009599006321323 * totalStaked ≤ stake * 18014398509481984 := by exact_mod_cast hq
      omega
    · have hn : 12009599006321323 * totalStaked ≤ stake * 18014398509481984 := by omega
      have hq : ((12009599006321323 * totalStaked : ℕ) : ℚ) ≤ (stake * 18014398509481984 : ℕ) := by
        exact_mod_cast hn
      push_cast at hq
      linarith
  · -- the whole stake
    have hst : stake = totalStaked := by
      rw [div_eq_one_iff_eq ht.ne'] at heq
      exact_mod_cast heq
    rw [heq, roundToDouble_one]
    constructor <;> intro _
    · omega
    · norm_num

/-- Past `2 ^ 53` the conversion to `f64` rounds: exactly two thirds of `2 ^ 53 + 1` passes. -/
theorem exceedsThreshold_two_thirds_past_two_pow_53 :
    exceedsThreshold 6004799503160662 9007199254740993 VOTE_THRESHOLD_SIZE = true ∧
      3 * 6004799503160662 = 2 * 9007199254740993 := by
  decide +kernel

/-! ## Confirmation and the vote threshold -/

/-- With no slot among its own ancestors, a slot is listed with its ancestors once. -/
theorem nodup_slotWithAncestors {ancestors : AncestorsMap}
    (hancestors : ∀ slot a, ancestors slot = some a → slot ∉ a.1) (slot : Slot) :
    (slotWithAncestors ancestors slot).Nodup := by
  unfold slotWithAncestors
  cases h : ancestors slot with
  | none => simp
  | some a =>
    simp only [Option.map_some, Option.getD_some]
    exact List.nodup_cons.2 ⟨hancestors slot a h, a.2⟩

/-- A vote account puts at most its epoch stake on a slot. -/
theorem stakeOn_le (epochStakes : EpochStakes) (bankSlot : Slot) {ancestors : AncestorsMap}
    (hancestors : ∀ slot a, ancestors slot = some a → slot ∉ a.1) (slot : Slot)
    (voteAccount : Pubkey × (UInt64 × Account)) :
    stakeOn epochStakes bankSlot ancestors slot voteAccount ≤
      (epochStakes.stakes.get? voteAccount.1).getD 0 := by
  unfold stakeOn
  split
  · rename_i vote _
    have hcount := List.nodup_iff_count_le_one.1 (nodup_slotWithAncestors hancestors vote.slot) slot
    calc _ ≤ 1 * (epochStakes.stakes.get? voteAccount.1).getD 0 := Nat.mul_le_mul_right _ hcount
      _ = _ := Nat.one_mul _
  · exact Nat.zero_le _

/-- Vote accounts with distinct keys put at most the epoch's total stake on a slot. -/
theorem sum_stakeOn_le (epochStakes : EpochStakes) (bankSlot : Slot) {ancestors : AncestorsMap}
    (hancestors : ∀ slot a, ancestors slot = some a → slot ∉ a.1) (slot : Slot)
    {voteAccounts : List (Pubkey × (UInt64 × Account))} (hkeys : (voteAccounts.map (·.1)).Nodup) :
    (voteAccounts.map (stakeOn epochStakes bankSlot ancestors slot)).sum ≤
      epochStakes.totalStaked := by
  calc (voteAccounts.map (stakeOn epochStakes bankSlot ancestors slot)).sum
      ≤ ((voteAccounts.map (·.1)).map fun key => (epochStakes.stakes.get? key).getD 0).sum := by
        rw [List.map_map]
        exact List.sum_le_sum fun voteAccount _ =>
          stakeOn_le epochStakes bankSlot hancestors slot voteAccount
    _ ≤ (epochStakes.stakes.map (·.2)).sum := AssocMap.sum_getD_le epochStakes.stakes_nodup hkeys
    _ = epochStakes.totalStaked := epochStakes.totalStaked_eq.symm

/-- `is_slot_confirmed` compares the stake of the slot's entry, a missing entry counting as none,
with a threshold of at least zero. -/
theorem isSlotConfirmed_eq (t : StakedLocktower) (h : 0 ≤ t.thresholdSize.val) (slot : Slot)
    (m : StakeLockouts) :
    t.isSlotConfirmed slot m =
      exceedsThreshold (m.entry slot).stake t.epochStakes.totalStaked t.thresholdSize := by
  unfold isSlotConfirmed StakeLockouts.entry
  cases m.get? slot with
  | none => exact (exceedsThreshold_zero h _).symm
  | some e => rfl

/-- `check_vote_stake_threshold` compares the stake of the entry of the vote `threshold_depth`
deep in the tower, if there is one. -/
theorem checkVoteStakeThreshold_eq (t : StakedLocktower) (h : 0 ≤ t.thresholdSize.val)
    (slot : Slot) (m : StakeLockouts) :
    t.checkVoteStakeThreshold slot m =
      ((t.lockouts.processSlotVoteUnchecked slot).nthRecentVote t.thresholdDepth).all fun vote =>
        exceedsThreshold (m.entry vote.slot).stake t.epochStakes.totalStaked t.thresholdSize := by
  unfold checkVoteStakeThreshold
  dsimp only
  cases (t.lockouts.processSlotVoteUnchecked slot).nthRecentVote t.thresholdDepth with
  | none => rfl
  | some vote =>
    simp only [Option.all_some, StakeLockouts.entry]
    cases m.get? vote.slot with
    | none => exact (exceedsThreshold_zero h _).symm
    | some e => rfl

section Threshold

variable (t : StakedLocktower) (bankSlot : Slot) (ancestors : AncestorsMap)
  (voteAccounts : List (Pubkey × (UInt64 × Account)))

/-- On a bank whose vote accounts have distinct keys and all voted below its slot, with no slot
among its own ancestors and a total stake below `2 ^ 53`, the stake collected on a slot exceeds
`VOTE_THRESHOLD_SIZE` exactly when the accounts put more than two thirds of the epoch's stake on
it. -/
theorem collectVoteLockouts_exceedsThreshold
    (htotal : t.epochStakes.totalStaked < 2 ^ 53) (hkeys : (voteAccounts.map (·.1)).Nodup)
    (hancestors : ∀ slot a, ancestors slot = some a → slot ∉ a.1)
    (hbelow : ∀ voteAccount ∈ voteAccounts, votedBelow bankSlot voteAccount = true) :
    ∃ m, t.collectVoteLockouts bankSlot voteAccounts ancestors = some m ∧ ∀ slot,
      (exceedsThreshold (m.entry slot).stake t.epochStakes.totalStaked VOTE_THRESHOLD_SIZE = true ↔
        2 * t.epochStakes.totalStaked <
          3 * (voteAccounts.map (stakeOn t.epochStakes bankSlot ancestors slot)).sum) := by
  obtain ⟨m, hrun, hm⟩ :=
    t.foldlM_collectVoteLockout_stake bankSlot ancestors voteAccounts hbelow []
  refine ⟨m, hrun, fun slot => ?_⟩
  rw [(hm slot).trans (Nat.zero_add _)]
  exact exceedsThreshold_iff (sum_stakeOn_le _ bankSlot hancestors slot hkeys) htotal

theorem slot_confirmed_iff_two_thirds (hsize : t.thresholdSize = VOTE_THRESHOLD_SIZE)
    (htotal : t.epochStakes.totalStaked < 2 ^ 53) (hkeys : (voteAccounts.map (·.1)).Nodup)
    (hancestors : ∀ slot a, ancestors slot = some a → slot ∉ a.1)
    (hbelow : ∀ voteAccount ∈ voteAccounts, votedBelow bankSlot voteAccount = true) :
    ∃ m, t.collectVoteLockouts bankSlot voteAccounts ancestors = some m ∧ ∀ slot,
      (t.isSlotConfirmed slot m = true ↔
        2 * t.epochStakes.totalStaked <
          3 * (voteAccounts.map (stakeOn t.epochStakes bankSlot ancestors slot)).sum) := by
  obtain ⟨m, hrun, hm⟩ :=
    t.collectVoteLockouts_exceedsThreshold bankSlot ancestors voteAccounts htotal hkeys hancestors
      hbelow
  refine ⟨m, hrun, fun slot => ?_⟩
  rw [isSlotConfirmed_eq t (hsize ▸ VOTE_THRESHOLD_SIZE_nonneg), hsize]
  exact hm slot

theorem slot_confirmed_iff_two_thirds_sole_voter :
    ∃ m, soleVoterLocktower.collectVoteLockouts 2 [soleVoter] chainAncestors = some m ∧
      soleVoterLocktower.isSlotConfirmed 0 m = true := by
  obtain ⟨m, hrun, hm⟩ := slot_confirmed_iff_two_thirds soleVoterLocktower 2 chainAncestors
    [soleVoter] rfl (by decide) (by decide) chainAncestors_not_mem (by decide)
  exact ⟨m, hrun, (hm 0).2 (by decide)⟩

theorem vote_threshold_iff_two_thirds (hsize : t.thresholdSize = VOTE_THRESHOLD_SIZE)
    (htotal : t.epochStakes.totalStaked < 2 ^ 53) (hkeys : (voteAccounts.map (·.1)).Nodup)
    (hancestors : ∀ slot a, ancestors slot = some a → slot ∉ a.1)
    (hbelow : ∀ voteAccount ∈ voteAccounts, votedBelow bankSlot voteAccount = true) :
    ∃ m, t.collectVoteLockouts bankSlot voteAccounts ancestors = some m ∧ ∀ slot,
      (t.checkVoteStakeThreshold slot m = true ↔
        ∀ vote, (t.lockouts.processSlotVoteUnchecked slot).nthRecentVote t.thresholdDepth =
            some vote →
          2 * t.epochStakes.totalStaked <
            3 * (voteAccounts.map (stakeOn t.epochStakes bankSlot ancestors vote.slot)).sum) := by
  obtain ⟨m, hrun, hm⟩ :=
    t.collectVoteLockouts_exceedsThreshold bankSlot ancestors voteAccounts htotal hkeys hancestors
      hbelow
  refine ⟨m, hrun, fun slot => ?_⟩
  rw [checkVoteStakeThreshold_eq t (hsize ▸ VOTE_THRESHOLD_SIZE_nonneg), hsize]
  cases (t.lockouts.processSlotVoteUnchecked slot).nthRecentVote t.thresholdDepth with
  | none => simp
  | some vote => simp [hm vote.slot]

theorem vote_threshold_iff_two_thirds_sole_voter :
    ∃ m, soleVoterLocktower.collectVoteLockouts 2 [soleVoter] chainAncestors = some m ∧
      soleVoterLocktower.checkVoteStakeThreshold 1 m = true := by
  obtain ⟨m, hrun, hm⟩ := vote_threshold_iff_two_thirds soleVoterLocktower 2 chainAncestors
    [soleVoter] rfl (by decide) (by decide) chainAncestors_not_mem (by decide)
  refine ⟨m, hrun, (hm 1).2 fun vote hvote => ?_⟩
  have htop : (soleVoterLocktower.lockouts.processSlotVoteUnchecked 1).nthRecentVote
      soleVoterLocktower.thresholdDepth = some ⟨1, 1⟩ := by decide
  rw [htop, Option.some.injEq] at hvote
  subst hvote
  decide

end Threshold

end StakedLocktower

end Morgan
