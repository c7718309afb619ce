import Morgan.Lib.AssocMap
import Morgan.Runtime.EpochSchedule

/-!
# The epoch stakes of a fork of banks

`bank.rs` keeps, in each bank, the stakes saved for the epochs whose leader schedules it can
compute (`epoch_stakes`).  `Bank::new` saves the genesis stakes for every epoch up to the stakers
epoch of slot 0; `new_from_parent` copies the parent's and saves the parent's stakes for its own
stakers epoch when that epoch has none.  `epoch_vote_accounts` reads them.

A fork (`StakesFork`) is a genesis bank followed by banks at increasing slots, each made from the
one before, with the newest bank's stakes changed by the transactions it processes.  Along a fork
a saved epoch never changes (`get?_of_mem`, `epochStakes_agree`), and the epochs saved are
exactly those up to the genesis stakers epoch and the stakers epochs of the banks' slots
(`isSome_get?_iff`).  A bank whose stakers epoch is at most one past its parent's keeps every
epoch up to its own (`Complete`, `complete_newFromParent`), as with banks at consecutive slots
(`complete_of_consecutive`); a bank that skips a whole stakers epoch leaves it without stakes.
-/

namespace Morgan

/-- `Stakes`, with its vote accounts: each one's stake and account.  The stake accounts only feed
`Stakes::store`, which is not modelled: a fork changes a bank's stakes arbitrarily. -/
structure Stakes where
  voteAccounts : AssocMap Pubkey (UInt64 × Account)
  deriving DecidableEq, Repr

/-- The fields of `Bank` its epoch stakes are made from and kept in. -/
structure StakesBank where
  slot : UInt64
  epochSchedule : EpochSchedule
  stakes : Stakes
  epochStakes : AssocMap UInt64 Stakes
  deriving DecidableEq, Repr

namespace StakesBank

/-- `get_stakers_epoch`. -/
def getStakersEpoch (bank : StakesBank) (slot : UInt64) : UInt64 :=
  bank.epochSchedule.getStakersEpoch slot

/-- The epoch stakes of `Bank::new`, once `process_genesis_block` has set the schedule and the
genesis stakes: those stakes for every epoch from 0 to the stakers epoch of slot 0. -/
def new (epochSchedule : EpochSchedule) (stakes : Stakes) : StakesBank :=
  let bank : StakesBank := ⟨0, epochSchedule, stakes, []⟩
  { bank with
    epochStakes := ((List.range ((bank.getStakersEpoch bank.slot).toNat + 1)).map UInt64.ofNat).foldl
      (fun epochStakes i => epochStakes.set i stakes) bank.epochStakes }

/-- `new_from_parent`; `none` is the panic of its assertion that the slots differ. -/
def newFromParent (parent : StakesBank) (slot : UInt64) : Option StakesBank :=
  if slot = parent.slot then none
  else
    let bank : StakesBank := ⟨slot, parent.epochSchedule, parent.stakes, []⟩
    let epochStakes := parent.epochStakes
    let epoch := bank.getStakersEpoch bank.slot
    -- if the parent did not save this epoch, a boundary was crossed
    some { bank with
      epochStakes := if (epochStakes.get? epoch).isNone then epochStakes.set epoch bank.stakes
        else epochStakes }

/-- `epoch_vote_accounts`. -/
def epochVoteAccounts (bank : StakesBank) (epoch : UInt64) :
    Option (AssocMap Pubkey (UInt64 × Account)) :=
  (bank.epochStakes.get? epoch).map Stakes.voteAccounts

/-! ## One bank -/

theorem get?_new (epochSchedule : EpochSchedule) (stakes : Stakes) (e : UInt64) :
    (new epochSchedule stakes).epochStakes.get? e =
      if e ≤ epochSchedule.getStakersEpoch 0 then some stakes else none := by
  have hmem : e ∈ (List.range ((epochSchedule.getStakersEpoch 0).toNat + 1)).map UInt64.ofNat ↔
      e ≤ epochSchedule.getStakersEpoch 0 := by
    rw [List.mem_map, UInt64.le_iff_toNat_le]
    constructor
    · rintro ⟨i, hi, rfl⟩
      rw [List.mem_range] at hi
      rw [UInt64.toNat_ofNat', Nat.mod_eq_of_lt (by have := UInt64.toNat_lt (epochSchedule.getStakersEpoch 0); omega)]
      omega
    · intro he
      exact ⟨e.toNat, List.mem_range.2 (by omega), UInt64.ofNat_toNat⟩
  simp only [new, getStakersEpoch, AssocMap.get?_foldl_set, hmem]
  rfl

/-- The step of a fork: the child keeps every saved epoch of its parent and saves the parent's
stakes for its own stakers epoch if that one is new. -/
theorem get?_newFromParent {parent child : StakesBank} {slot : UInt64}
    (h : parent.newFromParent slot = some child) (e : UInt64) :
    child.epochStakes.get? e = (parent.epochStakes.get? e).or
      (if e = parent.getStakersEpoch slot then some parent.stakes else none) := by
  unfold newFromParent at h
  split_ifs at h with hslot
  cases h
  cases hget : parent.epochStakes.get? (parent.epochSchedule.getStakersEpoch slot) with
  | none =>
    -- a new stakers epoch: saved with the parent's stakes
    by_cases he : e = parent.epochSchedule.getStakersEpoch slot
    · subst he
      simp [getStakersEpoch, hget]
    · simp [getStakersEpoch, hget, he, AssocMap.get?_set_of_ne _ he]
  | some x =>
    by_cases he : e = parent.epochSchedule.getStakersEpoch slot
    · subst he
      simp [getStakersEpoch, hget]
    · simp [getStakersEpoch, hget, he]

theorem newFromParent_slot {parent child : StakesBank} {slot : UInt64}
    (h : parent.newFromParent slot = some child) :
    child.slot = slot ∧ child.epochSchedule = parent.epochSchedule := by
  unfold newFromParent at h
  split_ifs at h
  cases h
  exact ⟨rfl, rfl⟩

/-- The stakes epochs of two banks with one schedule agree. -/
theorem getStakersEpoch_congr {b c : StakesBank} (h : b.epochSchedule = c.epochSchedule) :
    b.getStakersEpoch = c.getStakersEpoch := by
  unfold getStakersEpoch
  rw [h]

/-- What a bank's epoch stakes must hold: stakes for every epoch up to its slot's stakers epoch. -/
def Complete (bank : StakesBank) : Prop :=
  ∀ e ≤ bank.getStakersEpoch bank.slot, (bank.epochStakes.get? e).isSome

theorem complete_new (epochSchedule : EpochSchedule) (stakes : Stakes) :
    (new epochSchedule stakes).Complete := by
  intro e he
  rw [get?_new, if_pos (show e ≤ epochSchedule.getStakersEpoch 0 from he)]
  rfl

/-- A child whose stakers epoch is at most one past its parent's keeps the epoch stakes complete. -/
theorem complete_newFromParent {parent child : StakesBank} {slot : UInt64}
    (hp : parent.Complete) (h : parent.newFromParent slot = some child)
    (hstep : (parent.getStakersEpoch slot).toNat ≤ (parent.getStakersEpoch parent.slot).toNat + 1) :
    child.Complete := by
  obtain ⟨hslot, hsched⟩ := newFromParent_slot h
  intro e he
  rw [hslot, getStakersEpoch_congr hsched] at he
  rw [get?_newFromParent h, Option.isSome_or, Bool.or_eq_true]
  by_cases hle : e ≤ parent.getStakersEpoch parent.slot
  · exact Or.inl (hp e hle)
  · -- past the parent's stakers epoch, only the child's own is left
    have heq : e = parent.getStakersEpoch slot := by
      rw [UInt64.le_iff_toNat_le] at he hle
      exact UInt64.toNat_inj.1 (by omega)
    rw [if_pos heq]
    exact Or.inr rfl

/-! ## Forks -/

/-- A fork of banks: its newest bank and the older ones, newest first.  It starts at `Bank::new`;
a child is made by `new_from_parent` at a later slot, and the newest bank's stakes change with the
transactions it processes (a parent is frozen once it has a child). -/
inductive StakesFork : StakesBank → List StakesBank → Prop
  | genesis (epochSchedule : EpochSchedule) (stakes : Stakes) :
      StakesFork (new epochSchedule stakes) []
  | child {parent child : StakesBank} {banks : List StakesBank} {slot : UInt64} :
      StakesFork parent banks → parent.slot < slot → parent.newFromParent slot = some child →
      StakesFork child (parent :: banks)
  | store {bank : StakesBank} {banks : List StakesBank} (stakes : Stakes) :
      StakesFork bank banks → StakesFork { bank with stakes } banks

namespace StakesFork

variable {bank : StakesBank} {banks : List StakesBank}

/-- The banks of a fork share the newest bank's schedule. -/
theorem epochSchedule_eq (fork : StakesFork bank banks) :
    ∀ b ∈ bank :: banks, b.epochSchedule = bank.epochSchedule := by
  induction fork with
  | genesis epochSchedule stakes =>
    intro b hb
    rw [List.mem_singleton.1 hb]
  | child _ _ h ih =>
    intro b hb
    rw [(newFromParent_slot h).2]
    rcases List.mem_cons.1 hb with rfl | hb
    · exact (newFromParent_slot h).2
    · exact ih b hb
  | store stakes _ ih =>
    intro b hb
    rcases List.mem_cons.1 hb with rfl | hb
    · rfl
    · exact ih b (List.mem_cons_of_mem _ hb)

/-- Along a fork an epoch's stakes never change: the newest bank holds every epoch an older bank
saved, with the same stakes. -/
theorem get?_of_mem (fork : StakesFork bank banks) :
    ∀ b ∈ bank :: banks, ∀ {e : UInt64} {x : Stakes},
      b.epochStakes.get? e = some x → bank.epochStakes.get? e = some x := by
  induction fork with
  | genesis epochSchedule stakes =>
    intro b hb e x hx
    rwa [List.mem_singleton.1 hb] at hx
  | child _ _ h ih =>
    intro b hb e x hx
    rcases List.mem_cons.1 hb with rfl | hb
    · exact hx
    · -- the parent's entry passes to the child
      rw [get?_newFromParent h, ih b hb hx, Option.some_or]
  | store stakes _ ih =>
    intro b hb e x hx
    rcases List.mem_cons.1 hb with rfl | hb
    · exact hx
    · exact ih b (List.mem_cons_of_mem _ hb) hx

/-- Two banks of a fork that both saved an epoch saved the same stakes for it. -/
theorem epochStakes_agree (fork : StakesFork bank banks) {b₁ b₂ : StakesBank}
    (h₁ : b₁ ∈ bank :: banks) (h₂ : b₂ ∈ bank :: banks) {e : UInt64} {x₁ x₂ : Stakes}
    (hx₁ : b₁.epochStakes.get? e = some x₁) (hx₂ : b₂.epochStakes.get? e = some x₂) : x₁ = x₂ := by
  have := (fork.get?_of_mem b₁ h₁ hx₁).symm.trans (fork.get?_of_mem b₂ h₂ hx₂)
  exact Option.some.inj this

/-- The epochs a fork's newest bank holds stakes for: those up to the stakers epoch of slot 0,
and the stakers epochs of the fork's slots. -/
theorem isSome_get?_iff (fork : StakesFork bank banks) (e : UInt64) :
    (bank.epochStakes.get? e).isSome ↔
      e ≤ bank.getStakersEpoch 0 ∨ ∃ b ∈ bank :: banks, e = bank.getStakersEpoch b.slot := by
  induction fork with
  | genesis epochSchedule stakes =>
    have hgen : (new epochSchedule stakes).getStakersEpoch = epochSchedule.getStakersEpoch := rfl
    rw [get?_new, hgen]
    simp only [List.mem_singleton, exists_eq_left]
    by_cases he : e ≤ epochSchedule.getStakersEpoch 0
    · simp [he]
    · -- slot 0 is the genesis bank's own slot
      have hne : e ≠ epochSchedule.getStakersEpoch (new epochSchedule stakes).slot :=
        fun heq => he (heq ▸ UInt64.le_refl _)
      simp [he, hne]
  | @child parent child banks slot _ _ h ih =>
    obtain ⟨hslot, hsched⟩ := newFromParent_slot h
    rw [get?_newFromParent h, Option.isSome_or, Bool.or_eq_true, ih, getStakersEpoch_congr hsched]
    simp only [List.mem_cons, or_and_right, exists_or, exists_eq_left, hslot]
    by_cases he : e = parent.getStakersEpoch slot
    · simp [he]
    · simp [he]
  | store stakes _ ih =>
    simpa only [getStakersEpoch, List.mem_cons, or_and_right, exists_or, exists_eq_left] using ih

/-- An epoch past the genesis stakers epoch that no bank of the fork has as its stakers epoch has
no stakes in the newest bank. -/
theorem epochVoteAccounts_eq_none (fork : StakesFork bank banks) {e : UInt64}
    (hgenesis : bank.getStakersEpoch 0 < e)
    (hskipped : ∀ b ∈ bank :: banks, e ≠ bank.getStakersEpoch b.slot) :
    bank.epochVoteAccounts e = none := by
  have hnone : ¬ (bank.epochStakes.get? e).isSome := by
    rw [fork.isSome_get?_iff]
    rintro (hle | ⟨b, hb, heq⟩)
    · exact absurd hle (UInt64.not_le.2 hgenesis)
    · exact hskipped b hb heq
  unfold epochVoteAccounts
  rw [Option.not_isSome_iff_eq_none.1 hnone, Option.map_none]

/-- With a valid schedule whose offset is at most one epoch, the banks of a fork at consecutive
slots below `2 ^ 62` keep their epoch stakes complete: each slot's stakers epoch is at most one
past the slot before's. -/
theorem complete_of_consecutive (fork : StakesFork bank banks) (hv : bank.epochSchedule.Valid)
    (hoffset : bank.epochSchedule.stakersSlotOffset ≤ bank.epochSchedule.slotsPerEpoch)
    (hslot : bank.slot.toNat < 2 ^ 62)
    (hconsecutive : (bank :: banks).IsChain fun b p => b.slot = p.slot + 1) :
    bank.Complete := by
  induction fork with
  | genesis epochSchedule stakes => exact complete_new epochSchedule stakes
  | @child parent child banks slot _ hlt h ih =>
    obtain ⟨hslot', hsched⟩ := newFromParent_slot h
    obtain ⟨hnext, hrest⟩ := List.isChain_cons_cons.1 hconsecutive
    rw [hsched] at hv hoffset
    have hlt' := UInt64.lt_iff_toNat_lt.1 hlt
    have hs1 : (parent.slot + 1).toNat = parent.slot.toNat + 1 := by
      have := UInt64.toNat_lt slot
      rw [UInt64.toNat_add, UInt64.toNat_one]
      omega
    have hchild : child.slot.toNat = parent.slot.toNat + 1 := by rw [hnext, hs1]
    refine complete_newFromParent (ih hv hoffset (by omega) hrest) h ?_
    rw [← hslot', hnext]
    unfold getStakersEpoch
    rw [EpochSchedule.toNat_getStakersEpoch hv (by omega),
      EpochSchedule.toNat_getStakersEpoch hv (by omega), hs1]
    exact EpochSchedule.stakersEpochNat_succ_le hv (UInt64.le_iff_toNat_le.1 hoffset) _
  | @store bank banks stakes _ ih =>
    -- the slots, and so the chain of slots, are the bank's own
    have hchain : (bank :: banks).IsChain fun b p => b.slot = p.slot + 1 := by
      cases banks with
      | nil => exact List.isChain_singleton _
      | cons p rest => exact List.isChain_cons_cons.2 (List.isChain_cons_cons.1 hconsecutive)
    exact ih hv hoffset hslot hchain

end StakesFork

end StakesBank

/-- The schedule of 32 slots an epoch with an offset of 32 and no warmup. -/
def skippingSchedule : EpochSchedule := ⟨32, 32, 0, 0⟩

/-- The child at slot 64 of the genesis bank of `skippingSchedule`, with no vote accounts. -/
def bankAt64 : StakesBank := ⟨64, skippingSchedule, ⟨[]⟩, [(0, ⟨[]⟩), (1, ⟨[]⟩), (3, ⟨[]⟩)]⟩

/-- The genesis bank saves epochs 0 and 1; its child at slot 64, in epoch 2 with stakers epoch 3,
saves epoch 3 and leaves its own epoch 2 without stakes. -/
theorem epoch_stakes_gap_after_skipped_epoch :
    EpochSchedule.new 32 32 false = some skippingSchedule ∧
      StakesBank.StakesFork bankAt64 [StakesBank.new skippingSchedule ⟨[]⟩] ∧
      (skippingSchedule.getEpochAndSlotIndex 64).1 = 2 ∧ skippingSchedule.getStakersEpoch 64 = 3 ∧
      bankAt64.epochVoteAccounts 2 = none := by
  refine ⟨by decide, @StakesBank.StakesFork.child _ _ _ 64 (.genesis _ _) (by decide) (by decide),
    by decide, by decide, by decide⟩

end Morgan
