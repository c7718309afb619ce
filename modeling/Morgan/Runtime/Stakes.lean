import Mathlib
import Morgan.Runtime.Bank
import Morgan.Runtime.EpochStakes
import Morgan.Controllers.Stake

/-!
# The stakes cache

`stakes.rs`: a bank caches its vote accounts, each with the stake delegated to it, and the stake
accounts that delegate (`Stakes`).  The bank calls `Stakes::store` for every vote- or
stake-program account it stores.  A vote account that appears takes its stake from the cached stake
accounts (`calculate_stake`) or keeps the one cached; a stake account moves its difs from the vote
account it delegated to, to the one it delegates to now, by adjusting the cached stakes.

* `stakeOf_store_stakeProgram`: a stake account's store changes the stake delegated to each vote
  account by what the account adds now less what it added before;
* `Consistent.store`: with the cached stake accounts' difs below `2^64`, every cached vote
  account's stake stays the sum of what the cached stake accounts delegate to it;
* `stakes_cache_consistent`: so after every sequence of stores from the empty cache.

The `HashMap`s are maps without order: their `insert` is `AssocMap.set`.  Arithmetic on difs is
that of the release build: `u64` wraps.
-/

namespace Morgan

/-- `StakeState::voter_pubkey_from`: the vote account a stake account delegates to, when its data
decodes to a delegate's state. -/
def Stake.voterPubkeyFrom (account : Account) : Option Pubkey :=
  match Bincode.deserialize Stake.StakeState.deserialize account.data with
  | some (.delegate voterPubkey _) => some voterPubkey
  | _ => none

/-- `Stakes`, with both of its maps. -/
structure StakesCache where
  voteAccounts : AssocMap Pubkey (UInt64 × Account)
  stakeAccounts : AssocMap Pubkey Account
  deriving DecidableEq, Repr

namespace StakesCache

/-- `Stakes::default()`. -/
def default : StakesCache := ⟨[], []⟩

/-- The vote accounts, as the epoch stakes keep them. -/
def toStakes (s : StakesCache) : Stakes := ⟨s.voteAccounts⟩

/-- `calculate_stake`: the difs of the cached stake accounts that delegate to the vote account. -/
def calculateStake (s : StakesCache) (voterPubkey : Pubkey) : UInt64 :=
  ((s.stakeAccounts.filter fun e => some voterPubkey = Stake.voterPubkeyFrom e.2).map
    (·.2.difs)).sum

/-- The difs and vote account of a stake account that delegates, as `store` compares them. -/
def delegation (account : Account) : Option (UInt64 × Pubkey) :=
  (Stake.voterPubkeyFrom account).map fun voterPubkey => (account.difs, voterPubkey)

/-- `is_stake`. -/
def isStake (account : Account) : Bool :=
  account.owner = VOTE_PROGRAM_ID || account.owner = Stake.STAKE_PROGRAM_ID

/-- The vote accounts after a stake account moves its delegation: the old stake leaves its vote
account and the new one joins its own, each only where that vote account is cached
(`entry().and_modify`). -/
def moveStake (voteAccounts : AssocMap Pubkey (UInt64 × Account))
    (oldStake stake : Option (UInt64 × Pubkey)) : AssocMap Pubkey (UInt64 × Account) :=
  let voteAccounts := match oldStake with
    | some (oldStake, oldVoterPubkey) =>
      voteAccounts.modify oldVoterPubkey fun e => (e.1 - oldStake, e.2)
    | none => voteAccounts
  match stake with
  | some (stake, voterPubkey) => voteAccounts.modify voterPubkey fun e => (e.1 + stake, e.2)
  | none => voteAccounts

/-- `store`. -/
def store (s : StakesCache) (pubkey : Pubkey) (account : Account) : StakesCache :=
  if account.owner = VOTE_PROGRAM_ID then
    if account.difs = 0 then { s with voteAccounts := s.voteAccounts.erase pubkey }
    else
      -- update the stake of this entry
      let stake := ((s.voteAccounts.get? pubkey).map (·.1)).getD (s.calculateStake pubkey)
      { s with voteAccounts := s.voteAccounts.set pubkey (stake, account) }
  else if account.owner = Stake.STAKE_PROGRAM_ID then
    -- the stake and vote account of the version stored before, and of this one
    let oldStake := (s.stakeAccounts.get? pubkey).bind delegation
    let stake := delegation account
    { voteAccounts :=
        if stake ≠ oldStake then moveStake s.voteAccounts oldStake stake else s.voteAccounts
      stakeAccounts :=
        if account.difs = 0 then s.stakeAccounts.erase pubkey
        else s.stakeAccounts.set pubkey account }
  else s

/-- A sequence of stores from the empty cache. -/
def storeAll (stores : List (Pubkey × Account)) : StakesCache :=
  stores.foldl (fun s e => s.store e.1 e.2) default

/-! ## The stake delegated to a vote account -/

/-- What a stake account adds to a vote account's stake. -/
def contribution (v : Pubkey) (account : Account) : Nat :=
  if Stake.voterPubkeyFrom account = some v then account.difs.toNat else 0

/-- The stake the cached stake accounts delegate to `v`, without wrapping. -/
def stakeOf (s : StakesCache) (v : Pubkey) : Nat :=
  (s.stakeAccounts.map fun e => contribution v e.2).sum

/-- The difs of the cached stake accounts. -/
def totalDifs (s : StakesCache) : Nat := (s.stakeAccounts.map fun e => e.2.difs.toNat).sum

/-- Every cached vote account's stake is what the cached stake accounts delegate to it. -/
structure Consistent (s : StakesCache) : Prop where
  keys_nodup : s.stakeAccounts.keys.Nodup
  stake_eq : ∀ e ∈ s.voteAccounts, e.2.1.toNat = s.stakeOf e.1

theorem contribution_le (v : Pubkey) (account : Account) :
    contribution v account ≤ account.difs.toNat := by
  unfold contribution
  split <;> omega

theorem contribution_of_difs_zero (v : Pubkey) {account : Account} (h : account.difs = 0) :
    contribution v account = 0 := by
  simp [contribution, h]

theorem stakeOf_le_totalDifs (s : StakesCache) (v : Pubkey) : s.stakeOf v ≤ s.totalDifs :=
  List.sum_le_sum fun e _ => contribution_le v e.2

/-- A sum of `u64`s wraps the sum of their numbers. -/
theorem toNat_sum_map {α : Type} (f : α → UInt64) :
    ∀ l : List α, (l.map f).sum.toNat = (l.map fun a => (f a).toNat).sum % 2 ^ 64
  | [] => rfl
  | a :: l => by
    rw [List.map_cons, List.sum_cons, UInt64.toNat_add, toNat_sum_map f l, List.map_cons,
      List.sum_cons, Nat.add_mod_mod]

/-- `calculate_stake` is the stake delegated, wrapped. -/
theorem toNat_calculateStake (s : StakesCache) (v : Pubkey) :
    (s.calculateStake v).toNat = s.stakeOf v % 2 ^ 64 := by
  rw [calculateStake, toNat_sum_map, stakeOf]
  congr 1
  induction s.stakeAccounts with
  | nil => rfl
  | cons e l ih =>
    by_cases he : Stake.voterPubkeyFrom e.2 = some v
    · simp [he, contribution, ih]
    · have he' : ¬ some v = Stake.voterPubkeyFrom e.2 := fun h => he h.symm
      simp [he', contribution, he, ih]

/-- What a delegation adds to `v`'s stake. -/
def pairContribution (v : Pubkey) : Option (UInt64 × Pubkey) → Nat
  | some (difs, w) => if v = w then difs.toNat else 0
  | none => 0

theorem pairContribution_some (v : Pubkey) (difs : UInt64) (w : Pubkey) :
    pairContribution v (some (difs, w)) = if v = w then difs.toNat else 0 := rfl

theorem pairContribution_none (v : Pubkey) : pairContribution v none = 0 := rfl

theorem contribution_eq_pair (v : Pubkey) (account : Account) :
    contribution v account = pairContribution v (delegation account) := by
  unfold contribution delegation
  cases Stake.voterPubkeyFrom account with
  | none => simp [pairContribution_none]
  | some w =>
    by_cases hw : v = w
    · simp [pairContribution_some, hw]
    · simp [pairContribution_some, hw, Ne.symm hw]

/-- One modified entry of the vote accounts comes from an entry of the same key. -/
theorem mem_modify_stake {va : AssocMap Pubkey (UInt64 × Account)} {w : Pubkey}
    {g : UInt64 → UInt64} {e : Pubkey × UInt64 × Account}
    (he : e ∈ va.modify w fun x => (g x.1, x.2)) :
    ∃ x₀, (e.1, x₀, e.2.2) ∈ va ∧ e.2.1 = if e.1 = w then g x₀ else x₀ := by
  obtain ⟨e₀, he₀, rfl⟩ := List.mem_map.1 he
  by_cases hw : e₀.1 = w
  · rw [if_pos (beq_iff_eq.2 hw)]
    exact ⟨e₀.2.1, he₀, by rw [if_pos hw]⟩
  · rw [if_neg fun h => hw (beq_iff_eq.1 h)]
    exact ⟨e₀.2.1, he₀, by rw [if_neg hw]⟩

theorem toNat_sub_of_toNat_le {x o : UInt64} (h : o.toNat ≤ x.toNat) :
    (x - o).toNat = x.toNat - o.toNat :=
  UInt64.toNat_sub_of_le x o (UInt64.le_iff_toNat_le.2 h)

theorem toNat_add_of_lt {x n : UInt64} (h : x.toNat + n.toNat < 2 ^ 64) :
    (x + n).toNat = x.toNat + n.toNat := by
  rw [UInt64.toNat_add, Nat.mod_eq_of_lt h]

/-- An entry after a move of delegation: its stake less the old delegation's part plus the new
one's, when that neither goes below zero nor wraps. -/
theorem moveStake_entry {va : AssocMap Pubkey (UInt64 × Account)}
    {oldStake stake : Option (UInt64 × Pubkey)} {e : Pubkey × UInt64 × Account}
    (he : e ∈ moveStake va oldStake stake) :
    ∃ x₀, (e.1, x₀, e.2.2) ∈ va ∧
      (pairContribution e.1 oldStake ≤ x₀.toNat →
        x₀.toNat - pairContribution e.1 oldStake + pairContribution e.1 stake < 2 ^ 64 →
        e.2.1.toNat = x₀.toNat - pairContribution e.1 oldStake + pairContribution e.1 stake) := by
  unfold moveStake at he
  -- the second modification, then the first, each read back to the entry it came from
  cases stake with
  | none =>
    cases oldStake with
    | none => exact ⟨e.2.1, he, fun _ _ => by simp [pairContribution_none]⟩
    | some old =>
      obtain ⟨o, ow⟩ := old
      dsimp only at he
      obtain ⟨x₀, hx₀, hx⟩ := mem_modify_stake (g := fun x => x - o) he
      refine ⟨x₀, hx₀, fun hle _ => ?_⟩
      simp only [pairContribution_some, pairContribution_none] at hle ⊢
      rw [hx]
      split_ifs at hle ⊢
      · rw [toNat_sub_of_toNat_le hle]
        omega
      · omega
  | some new =>
    obtain ⟨n, nw⟩ := new
    dsimp only at he
    obtain ⟨x₁, hx₁, hx⟩ := mem_modify_stake (g := fun x => x + n) he
    have hadd : x₁.toNat + pairContribution e.1 (some (n, nw)) < 2 ^ 64 →
        e.2.1.toNat = x₁.toNat + pairContribution e.1 (some (n, nw)) := fun hb => by
      simp only [pairContribution_some] at hb ⊢
      rw [hx]
      split_ifs at hb ⊢
      · exact toNat_add_of_lt hb
      · rfl
    cases oldStake with
    | none => exact ⟨x₁, hx₁, fun _ hb => by
        simpa [pairContribution_none] using hadd (by simpa [pairContribution_none] using hb)⟩
    | some old =>
      obtain ⟨o, ow⟩ := old
      dsimp only at hx₁
      obtain ⟨x₀, hx₀, hx'⟩ := mem_modify_stake (g := fun x => x - o) hx₁
      dsimp only at hx₀ hx'
      have hsub : pairContribution e.1 (some (o, ow)) ≤ x₀.toNat →
          x₁.toNat = x₀.toNat - pairContribution e.1 (some (o, ow)) := fun hle => by
        simp only [pairContribution_some] at hle ⊢
        rw [hx']
        split_ifs at hle ⊢
        · exact toNat_sub_of_toNat_le hle
        · omega
      refine ⟨x₀, hx₀, fun hle hb => ?_⟩
      rw [hadd (by rw [hsub hle]; exact hb), hsub hle]

/-! ## A stake account's store -/

section StakeProgram

variable {s : StakesCache} {pubkey v : Pubkey} {account : Account}

/-- The stake delegated to `v` after a stake account's store: less what the account added before,
plus what it adds now. -/
theorem stakeOf_store_stakeProgram (hs : s.stakeAccounts.keys.Nodup)
    (hvote : account.owner ≠ VOTE_PROGRAM_ID) (hstake : account.owner = Stake.STAKE_PROGRAM_ID) :
    (s.store pubkey account).stakeOf v +
        ((s.stakeAccounts.get? pubkey).map (contribution v)).getD 0 =
      s.stakeOf v + contribution v account := by
  simp only [store, if_neg hvote, if_pos hstake, stakeOf]
  split
  · rename_i hzero
    rw [contribution_of_difs_zero v hzero, Nat.add_zero]
    exact AssocMap.sum_map_erase (contribution v) hs pubkey
  · exact AssocMap.sum_map_set (contribution v) hs pubkey account

/-- What the version stored before added, read from its delegation. -/
theorem getD_contribution_eq_pair (s : StakesCache) (pubkey v : Pubkey) :
    ((s.stakeAccounts.get? pubkey).map (contribution v)).getD 0 =
      pairContribution v ((s.stakeAccounts.get? pubkey).bind delegation) := by
  cases s.stakeAccounts.get? pubkey with
  | none => rfl
  | some a => exact contribution_eq_pair v a

/-- What one cached stake account adds is part of the whole. -/
theorem getD_contribution_le_stakeOf (hs : s.stakeAccounts.keys.Nodup) :
    ((s.stakeAccounts.get? pubkey).map (contribution v)).getD 0 ≤ s.stakeOf v := by
  have := AssocMap.sum_map_erase (contribution v) hs pubkey
  unfold stakeOf
  omega

theorem keys_nodup_store_stakeProgram (hs : s.stakeAccounts.keys.Nodup)
    (hvote : account.owner ≠ VOTE_PROGRAM_ID) (hstake : account.owner = Stake.STAKE_PROGRAM_ID) :
    (s.store pubkey account).stakeAccounts.keys.Nodup := by
  simp only [store, if_neg hvote, if_pos hstake]
  split
  · exact hs.sublist (List.filter_sublist.map _)
  · exact AssocMap.nodup_keys_set hs pubkey account

/-- A stake account's store keeps every cached vote account's stake the sum delegated to it, when
the cached stake accounts' difs stay below `2^64`: the adjustment of each vote account is the change
of what the account delegates to it. -/
theorem Consistent.store_stakeProgram (hc : s.Consistent) (hvote : account.owner ≠ VOTE_PROGRAM_ID)
    (hstake : account.owner = Stake.STAKE_PROGRAM_ID)
    (hbound : (s.store pubkey account).totalDifs < 2 ^ 64) : (s.store pubkey account).Consistent := by
  refine ⟨keys_nodup_store_stakeProgram hc.keys_nodup hvote hstake, fun e he => ?_⟩
  have hsum : (s.store pubkey account).stakeOf e.1 +
      ((s.stakeAccounts.get? pubkey).map (contribution e.1)).getD 0 =
        s.stakeOf e.1 + contribution e.1 account :=
    stakeOf_store_stakeProgram hc.keys_nodup hvote hstake
  have hle : ((s.stakeAccounts.get? pubkey).map (contribution e.1)).getD 0 ≤ s.stakeOf e.1 :=
    getD_contribution_le_stakeOf hc.keys_nodup
  have hfit := (stakeOf_le_totalDifs (s.store pubkey account) e.1).trans_lt hbound
  rw [getD_contribution_eq_pair, contribution_eq_pair] at hsum
  rw [getD_contribution_eq_pair] at hle
  simp only [store, if_neg hvote, if_pos hstake] at he
  split at he
  · -- the delegation changed: the entry moved by the change
    obtain ⟨x₀, hx₀, hx⟩ := moveStake_entry he
    have h₀ := hc.stake_eq _ hx₀
    dsimp only at h₀
    rw [hx (h₀ ▸ hle) (by omega), h₀]
    omega
  · -- the same delegation: nothing moves
    rename_i hsame
    rw [not_not] at hsame
    rw [hsame] at hsum
    rw [hc.stake_eq e he]
    omega

end StakeProgram

/-! ## Every store -/

variable {s : StakesCache}

theorem Consistent.default : StakesCache.default.Consistent :=
  ⟨List.nodup_nil, fun _ he => by cases he⟩

/-- A vote account's store keeps the cached stake accounts, and either drops the vote account or
caches it with the stake cached before or the stake delegated to it. -/
theorem Consistent.store_voteProgram (hc : s.Consistent) {pubkey : Pubkey} {account : Account}
    (hvote : account.owner = VOTE_PROGRAM_ID)
    (hbound : (s.store pubkey account).totalDifs < 2 ^ 64) : (s.store pubkey account).Consistent := by
  by_cases hzero : account.difs = 0
  · have hstore : s.store pubkey account = { s with voteAccounts := s.voteAccounts.erase pubkey } :=
      by simp [store, hvote, hzero]
    rw [hstore]
    exact ⟨hc.keys_nodup, fun e he => hc.stake_eq e (List.mem_filter.1 he).1⟩
  · have hstore : s.store pubkey account =
        { s with
          voteAccounts := s.voteAccounts.set pubkey
            (((s.voteAccounts.get? pubkey).map (·.1)).getD (s.calculateStake pubkey), account) } := by
      simp [store, hvote, hzero]
    have hfit : s.stakeOf pubkey < 2 ^ 64 := by
      rw [hstore] at hbound
      exact (stakeOf_le_totalDifs s pubkey).trans_lt hbound
    rw [hstore]
    refine ⟨hc.keys_nodup, fun e he => ?_⟩
    rcases List.mem_append.1 he with he | he
    · exact hc.stake_eq e (List.mem_filter.1 he).1
    · rw [List.mem_singleton.1 he]
      show (((s.voteAccounts.get? pubkey).map (·.1)).getD (s.calculateStake pubkey)).toNat =
        s.stakeOf pubkey
      cases hget : s.voteAccounts.get? pubkey with
      | none => rw [Option.map_none, Option.getD_none, toNat_calculateStake, Nat.mod_eq_of_lt hfit]
      | some x => exact hc.stake_eq _ (AssocMap.mem_of_get? hget)

/-- Every store keeps the cache consistent while the cached stake accounts' difs stay below
`2^64`. -/
theorem Consistent.store (hc : s.Consistent) (pubkey : Pubkey) (account : Account)
    (hbound : (s.store pubkey account).totalDifs < 2 ^ 64) : (s.store pubkey account).Consistent := by
  by_cases hvote : account.owner = VOTE_PROGRAM_ID
  · exact hc.store_voteProgram hvote hbound
  · by_cases hstake : account.owner = Stake.STAKE_PROGRAM_ID
    · exact hc.store_stakeProgram hvote hstake hbound
    · have hstore : s.store pubkey account = s := by
        rw [StakesCache.store, if_neg hvote, if_neg hstake]
      rw [hstore]
      exact hc

/-- A sequence of stores keeps the cache consistent, by induction on the sequence with the bound
at every prefix. -/
theorem Consistent.foldl_store :
    ∀ (stores : List (Pubkey × Account)) {s : StakesCache}, s.Consistent →
      (∀ n, ((stores.take n).foldl (fun s e => s.store e.1 e.2) s).totalDifs < 2 ^ 64) →
      (stores.foldl (fun s e => s.store e.1 e.2) s).Consistent
  | [], _, hc, _ => hc
  | e :: stores, _, hc, hbound =>
    Consistent.foldl_store stores (hc.store e.1 e.2 (hbound 1)) fun n => hbound (n + 1)

end StakesCache

theorem stakes_cache_consistent (stores : List (Pubkey × Account))
    (hbound : ∀ n, (StakesCache.storeAll (stores.take n)).totalDifs < 2 ^ 64) :
    ∀ v stake account, (v, stake, account) ∈ (StakesCache.storeAll stores).voteAccounts →
      stake = (StakesCache.storeAll stores).calculateStake v ∧
        stake.toNat = (StakesCache.storeAll stores).stakeOf v := by
  intro v stake account hmem
  have hc := StakesCache.Consistent.foldl_store stores StakesCache.Consistent.default hbound
  have hsum : stake.toNat = (StakesCache.storeAll stores).stakeOf v := hc.stake_eq _ hmem
  refine ⟨UInt64.toNat_inj.1 ?_, hsum⟩
  rw [StakesCache.toNat_calculateStake, ← hsum, Nat.mod_eq_of_lt stake.toNat_lt]


namespace StakesCache

/-- A vote account of one dif, stored before a stake account of ten difs that delegates to it. -/
def delegateStores : List (Pubkey × Account) :=
  [(⟨Vector.replicate 32 3⟩, ⟨1, 0, [], VOTE_PROGRAM_ID, false⟩),
   (⟨Vector.replicate 32 4⟩,
    ⟨10, 0, (Stake.StakeState.delegate ⟨Vector.replicate 32 3⟩ 0).serialize,
      Stake.STAKE_PROGRAM_ID, false⟩)]

end StakesCache

/-- The vote account ends with the stake account's ten difs as its stake. -/
theorem stakes_cache_consistent_delegate :
    (∀ n, (StakesCache.storeAll (StakesCache.delegateStores.take n)).totalDifs < 2 ^ 64) ∧
      ((⟨Vector.replicate 32 3⟩, 10, ⟨1, 0, [], VOTE_PROGRAM_ID, false⟩) :
        Pubkey × UInt64 × Account) ∈ (StakesCache.storeAll StakesCache.delegateStores).voteAccounts ∧
      (10 : UInt64) =
        (StakesCache.storeAll StakesCache.delegateStores).calculateStake ⟨Vector.replicate 32 3⟩ := by
  have hbound : ∀ n, (StakesCache.storeAll (StakesCache.delegateStores.take n)).totalDifs <
      2 ^ 64 := by
    intro n
    match n with
    | 0 => decide
    | 1 => decide
    | n + 2 =>
      rw [List.take_of_length_le (by simp [StakesCache.delegateStores])]
      decide
  have hmem : ((⟨Vector.replicate 32 3⟩, 10, ⟨1, 0, [], VOTE_PROGRAM_ID, false⟩) :
      Pubkey × UInt64 × Account) ∈ (StakesCache.storeAll StakesCache.delegateStores).voteAccounts :=
    by decide
  exact ⟨hbound, hmem, (stakes_cache_consistent StakesCache.delegateStores hbound _ _ _ hmem).1⟩

end Morgan
