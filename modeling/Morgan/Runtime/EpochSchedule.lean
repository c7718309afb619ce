import Morgan.Lib.Bits
import Morgan.Controllers.VoteState

/-!
# The epoch schedule

`EpochSchedule` of `runtime/src/epoch_schedule.rs`: how slots are grouped into epochs.  With
warmup the first epochs hold `32, 64, 128, …` slots (`MINIMUM_SLOT_LENGTH = 32` doubled each
epoch) until an epoch reaches `slots_per_epoch`; from `first_normal_slot` on every epoch holds
`slots_per_epoch` slots.  The getters compute with `u64` and `u32` words, which wrap.

The unbounded counterparts (`epochNat`, `slotIndexNat`, `firstSlotNat`, `slotsInEpochNat`,
`stakersEpochNat`) say what the arithmetic means, and their lemmas give the schedule's laws:
the slots of an epoch are consecutive (`firstSlotNat_add_slotsInEpochNat`), every slot lies in
its epoch (`firstSlotNat_epochNat_add`, `slotIndexNat_lt`), and the epochs and stakers epochs
grow monotonically, by at most one a slot.  On the schedules `new` builds (`new_valid`) the
getters agree with them for slots below `2 ^ 62` (`toNat_getEpochAndSlotIndex`, …), which gives
`Valid.consistent`.  A stakers offset near `u64::MAX` wraps `get_stakers_epoch` behind the
slot's own epoch.
-/

namespace Morgan
open Rust

/-- `MINIMUM_SLOT_LENGTH`: the length of the first warmup epoch. -/
def MINIMUM_SLOT_LENGTH : Nat := MAX_LOCKOUT_HISTORY + 1

/-- `EpochSchedule`. -/
structure EpochSchedule where
  slotsPerEpoch : UInt64
  stakersSlotOffset : UInt64
  firstNormalEpoch : UInt64
  firstNormalSlot : UInt64
  deriving DecidableEq, Repr

namespace EpochSchedule

/-- `MINIMUM_SLOT_LENGTH.trailing_zeros()`. -/
def minimumSlotLengthZeros : UInt32 := trailingZeros (UInt64.ofNat MINIMUM_SLOT_LENGTH)

/-- `EpochSchedule::new`; `none` is the panic of its assertion. -/
def new (slotsPerEpoch stakersSlotOffset : UInt64) (warmup : Bool) : Option EpochSchedule :=
  if slotsPerEpoch < UInt64.ofNat MINIMUM_SLOT_LENGTH then none
  else
    let (firstNormalEpoch, firstNormalSlot) :=
      if warmup then
        let nextPowerOfTwo := nextPowerOfTwo slotsPerEpoch
        let log2SlotsPerEpoch := saturatingSub32 (trailingZeros nextPowerOfTwo) minimumSlotLengthZeros
        (log2SlotsPerEpoch.toUInt64,
          saturatingSub64 nextPowerOfTwo (UInt64.ofNat MINIMUM_SLOT_LENGTH))
      else (0, 0)
    some ⟨slotsPerEpoch, stakersSlotOffset, firstNormalEpoch, firstNormalSlot⟩

variable (E : EpochSchedule)

/-- `get_slots_in_epoch`. -/
def getSlotsInEpoch (epoch : UInt64) : UInt64 :=
  if epoch < E.firstNormalEpoch then pow2 (epoch.toUInt32 + minimumSlotLengthZeros)
  else E.slotsPerEpoch

/-- `get_epoch_and_slot_index`: the epoch of a slot and its index in the epoch. -/
def getEpochAndSlotIndex (slot : UInt64) : UInt64 × UInt64 :=
  if slot < E.firstNormalSlot then
    let epoch : UInt32 :=
      trailingZeros (nextPowerOfTwo (slot + UInt64.ofNat MINIMUM_SLOT_LENGTH + 1)) -
        minimumSlotLengthZeros - 1
    let epochLen := pow2 (epoch + minimumSlotLengthZeros)
    (epoch.toUInt64, slot - (epochLen - UInt64.ofNat MINIMUM_SLOT_LENGTH))
  else
    (E.firstNormalEpoch + (slot - E.firstNormalSlot) / E.slotsPerEpoch,
      (slot - E.firstNormalSlot) % E.slotsPerEpoch)

/-- `get_stakers_epoch`: the epoch whose stakers the slot saves. -/
def getStakersEpoch (slot : UInt64) : UInt64 :=
  if slot < E.firstNormalSlot then (E.getEpochAndSlotIndex slot).1 + 1
  else E.firstNormalEpoch + (slot - E.firstNormalSlot + E.stakersSlotOffset) / E.slotsPerEpoch

/-- `get_first_slot_in_epoch`. -/
def getFirstSlotInEpoch (epoch : UInt64) : UInt64 :=
  if epoch ≤ E.firstNormalEpoch then (pow2 epoch.toUInt32 - 1) * UInt64.ofNat MINIMUM_SLOT_LENGTH
  else (epoch - E.firstNormalEpoch) * E.slotsPerEpoch + E.firstNormalSlot

/-- `get_last_slot_in_epoch`. -/
def getLastSlotInEpoch (epoch : UInt64) : UInt64 :=
  E.getFirstSlotInEpoch epoch + E.getSlotsInEpoch epoch - 1

theorem minimumSlotLengthZeros_toNat : minimumSlotLengthZeros.toNat = 5 := by decide

/-- The schedules `new` builds with at most `2 ^ 62` slots an epoch and an offset of at most
`2 ^ 62` slots: warmup epochs of `2 ^ (e + 5)` slots fill the slots before the first normal one. -/
structure Valid : Prop where
  slotsPerEpoch_ge : 32 ≤ E.slotsPerEpoch.toNat
  slotsPerEpoch_le : E.slotsPerEpoch.toNat ≤ 2 ^ 62
  offset_le : E.stakersSlotOffset.toNat ≤ 2 ^ 62
  firstNormalEpoch_le : E.firstNormalEpoch.toNat ≤ 57
  firstNormalSlot_add : E.firstNormalSlot.toNat + 32 = 2 ^ (E.firstNormalEpoch.toNat + 5)

theorem new_valid {slotsPerEpoch stakersSlotOffset : UInt64} {warmup : Bool} {E : EpochSchedule}
    (h : new slotsPerEpoch stakersSlotOffset warmup = some E)
    (hslots : slotsPerEpoch.toNat ≤ 2 ^ 62) (hoffset : stakersSlotOffset.toNat ≤ 2 ^ 62) :
    E.Valid := by
  have hmin : (UInt64.ofNat MINIMUM_SLOT_LENGTH).toNat = 32 := by decide
  unfold new at h
  split_ifs at h with hlt hwarmup
  all_goals
    have hge : 32 ≤ slotsPerEpoch.toNat := by
      rw [UInt64.lt_iff_toNat_lt, hmin] at hlt
      omega
    cases h
  · -- the first normal epoch is the first whose length reaches `slots_per_epoch`
    set k := Nat.log2 (slotsPerEpoch.toNat - 1) + 1 with hk
    have hpow := toNat_nextPowerOfTwo (x := slotsPerEpoch) (by omega) (by omega)
    have hk5 : 5 ≤ k := by
      have := (Nat.le_log2 (n := slotsPerEpoch.toNat - 1) (k := 4) (by omega)).2 (by omega)
      omega
    have hk62 : k ≤ 62 := by
      have := (Nat.log2_lt (n := slotsPerEpoch.toNat - 1) (k := 62) (by omega)).2 (by omega)
      omega
    have htz := toNat_trailingZeros hpow (by omega)
    have h32 : 32 ≤ 2 ^ k := by
      calc 32 = 2 ^ 5 := by norm_num
        _ ≤ 2 ^ k := Nat.pow_le_pow_right (by norm_num) hk5
    refine ⟨hge, hslots, hoffset, ?_, ?_⟩
    · simp only [UInt32.toNat_toUInt64, toNat_saturatingSub32, htz, minimumSlotLengthZeros_toNat]
      omega
    · simp only [UInt32.toNat_toUInt64, toNat_saturatingSub32, toNat_saturatingSub64, htz, hpow,
        hmin, minimumSlotLengthZeros_toNat]
      rw [Nat.sub_add_cancel hk5, Nat.sub_add_cancel h32]
  · exact ⟨hge, hslots, hoffset, by simp, by simp⟩

/-- With warmup, 48 slots an epoch round up to 64: one warmup epoch of 32 slots. -/
example : new 48 16 true = some ⟨48, 16, 1, 32⟩ := by decide

/-! ## The schedule in unbounded numbers -/

/-- The epoch of a slot as the schedule's arithmetic means it: the warmup epoch `e` holds the
`2 ^ (e + 5)` slots from `2 ^ (e + 5) - 32`, and the epochs from the first normal slot on hold
`slots_per_epoch` slots each. -/
def epochNat (s : Nat) : Nat :=
  if s < E.firstNormalSlot.toNat then Nat.log2 (s + 32) - 5
  else E.firstNormalEpoch.toNat + (s - E.firstNormalSlot.toNat) / E.slotsPerEpoch.toNat

/-- The index of a slot in its epoch. -/
def slotIndexNat (s : Nat) : Nat :=
  if s < E.firstNormalSlot.toNat then s + 32 - 2 ^ Nat.log2 (s + 32)
  else (s - E.firstNormalSlot.toNat) % E.slotsPerEpoch.toNat

/-- The first slot of an epoch. -/
def firstSlotNat (e : Nat) : Nat :=
  if e ≤ E.firstNormalEpoch.toNat then 2 ^ (e + 5) - 32
  else (e - E.firstNormalEpoch.toNat) * E.slotsPerEpoch.toNat + E.firstNormalSlot.toNat

/-- The number of slots of an epoch. -/
def slotsInEpochNat (e : Nat) : Nat :=
  if e < E.firstNormalEpoch.toNat then 2 ^ (e + 5) else E.slotsPerEpoch.toNat

/-- The epoch whose stakers a slot saves: one past its own in the warmup, else the epoch of the
slot moved on by the offset. -/
def stakersEpochNat (s : Nat) : Nat :=
  if s < E.firstNormalSlot.toNat then E.epochNat s + 1
  else E.firstNormalEpoch.toNat +
    (s - E.firstNormalSlot.toNat + E.stakersSlotOffset.toNat) / E.slotsPerEpoch.toNat

/-- Where a slot of the warmup falls: `2 ^ L ≤ s + 32 < 2 ^ (L + 1)` for `L = log2 (s + 32)`, which
is at least 5 and below the first normal epoch's `F + 5`. -/
theorem log2_warmup {s F : Nat} (hs : s + 32 < 2 ^ (F + 5)) :
    5 ≤ Nat.log2 (s + 32) ∧ Nat.log2 (s + 32) < F + 5 ∧ 2 ^ Nat.log2 (s + 32) ≤ s + 32 ∧
      s + 32 < 2 * 2 ^ Nat.log2 (s + 32) := by
  have hne : s + 32 ≠ 0 := by omega
  refine ⟨(Nat.le_log2 hne).2 (by norm_num), (Nat.log2_lt hne).2 hs, Nat.log2_self_le hne, ?_⟩
  have := Nat.lt_log2_self (n := s + 32)
  rwa [Nat.pow_succ, Nat.mul_comm] at this

theorem log2_le_log2 {a b : Nat} (ha : a ≠ 0) (hab : a ≤ b) : Nat.log2 a ≤ Nat.log2 b :=
  (Nat.le_log2 (by omega)).2 ((Nat.log2_self_le ha).trans hab)

/-- `(x + 1) / d ≤ x / d + 1`. -/
theorem succ_div_le (x : Nat) {d : Nat} (hd : 0 < d) : (x + 1) / d ≤ x / d + 1 := by
  calc (x + 1) / d ≤ (x + d) / d := Nat.div_le_div_right (by omega)
    _ = x / d + 1 := Nat.add_div_right x hd

section Nat

variable {E} (hv : E.Valid)
include hv

theorem firstSlotNat_add_slotsInEpochNat (e : Nat) :
    E.firstSlotNat e + E.slotsInEpochNat e = E.firstSlotNat (e + 1) := by
  have hS := hv.firstNormalSlot_add
  unfold firstSlotNat slotsInEpochNat
  rcases lt_trichotomy e E.firstNormalEpoch.toNat with hlt | heq | hgt
  · -- two warmup epochs: `2 ^ (e + 6) - 32 = 2 ^ (e + 5) - 32 + 2 ^ (e + 5)`
    have h32 : 32 ≤ 2 ^ (e + 5) := by
      calc 32 = 2 ^ 5 := by norm_num
        _ ≤ 2 ^ (e + 5) := Nat.pow_le_pow_right (by norm_num) (by omega)
    have hdouble : 2 ^ (e + 1 + 5) = 2 * 2 ^ (e + 5) := by
      rw [show e + 1 + 5 = e + 5 + 1 by omega, Nat.pow_succ, Nat.mul_comm]
    rw [if_pos hlt.le, if_pos hlt, if_pos (show e + 1 ≤ E.firstNormalEpoch.toNat by omega),
      hdouble]
    omega
  · -- the last warmup epoch ends at the first normal slot
    rw [if_pos heq.le, if_neg (by omega), if_neg (by omega), heq, Nat.add_sub_cancel_left,
      Nat.one_mul]
    omega
  · rw [if_neg (by omega), if_neg (by omega), if_neg (by omega),
      show e + 1 - E.firstNormalEpoch.toNat = e - E.firstNormalEpoch.toNat + 1 by omega,
      Nat.succ_mul]
    omega

/-- A slot is the first slot of its epoch plus its index in the epoch. -/
theorem firstSlotNat_epochNat_add (s : Nat) :
    E.firstSlotNat (E.epochNat s) + E.slotIndexNat s = s := by
  have hS := hv.firstNormalSlot_add
  by_cases hs : s < E.firstNormalSlot.toNat
  · obtain ⟨h5, hF, hlo, -⟩ := log2_warmup (F := E.firstNormalEpoch.toNat) (s := s) (by omega)
    have h32 : 32 ≤ 2 ^ Nat.log2 (s + 32) :=
      le_trans (by norm_num : 32 ≤ 2 ^ 5) (Nat.pow_le_pow_right (by norm_num) h5)
    rw [epochNat, slotIndexNat, if_pos hs, if_pos hs, firstSlotNat, if_pos (by omega),
      Nat.sub_add_cancel h5]
    omega
  · -- the normal epochs: the quotient and remainder of the slots past the first normal one
    have hr := Nat.div_add_mod (s - E.firstNormalSlot.toNat) E.slotsPerEpoch.toNat
    rw [epochNat, slotIndexNat, if_neg hs, if_neg hs, firstSlotNat]
    generalize (s - E.firstNormalSlot.toNat) / E.slotsPerEpoch.toNat = q at hr ⊢
    split_ifs with hF
    · have hq0 : q = 0 := by omega
      rw [hq0, Nat.mul_zero, Nat.zero_add] at hr
      rw [hq0, Nat.add_zero]
      omega
    · rw [Nat.add_sub_cancel_left, Nat.mul_comm]
      omega

/-- The index of a slot lies inside its epoch. -/
theorem slotIndexNat_lt (s : Nat) : E.slotIndexNat s < E.slotsInEpochNat (E.epochNat s) := by
  have hS := hv.firstNormalSlot_add
  have hP := hv.slotsPerEpoch_ge
  by_cases hs : s < E.firstNormalSlot.toNat
  · obtain ⟨h5, hF, hlo, hhi⟩ := log2_warmup (F := E.firstNormalEpoch.toNat) (s := s) (by omega)
    rw [epochNat, slotIndexNat, if_pos hs, if_pos hs, slotsInEpochNat, if_pos (by omega),
      Nat.sub_add_cancel h5]
    omega
  · rw [epochNat, slotIndexNat, if_neg hs, if_neg hs, slotsInEpochNat,
      if_neg (Nat.not_lt.2 (Nat.le_add_right _ _))]
    exact Nat.mod_lt _ (by omega)

omit hv in
/-- The epoch whose stakes a slot saves is never before the slot's own. -/
theorem epochNat_le_stakersEpochNat (s : Nat) : E.epochNat s ≤ E.stakersEpochNat s := by
  unfold stakersEpochNat
  split_ifs with hs
  · exact Nat.le_succ _
  · unfold epochNat
    rw [if_neg hs]
    exact Nat.add_le_add_left (Nat.div_le_div_right (Nat.le_add_right _ _)) _

/-- The warmup epochs end before the first normal epoch. -/
theorem epochNat_lt_of_warmup {s : Nat} (hs : s < E.firstNormalSlot.toNat) :
    E.epochNat s < E.firstNormalEpoch.toNat := by
  have hS := hv.firstNormalSlot_add
  obtain ⟨h5, hlt, -, -⟩ := log2_warmup (F := E.firstNormalEpoch.toNat) (s := s) (by omega)
  unfold epochNat
  rw [if_pos hs]
  omega

omit hv in
/-- From the first normal slot on, the epochs are the normal ones. -/
theorem le_epochNat_of_normal {s : Nat} (hs : ¬ s < E.firstNormalSlot.toNat) :
    E.firstNormalEpoch.toNat ≤ E.epochNat s := by
  unfold epochNat
  rw [if_neg hs]
  exact Nat.le_add_right _ _

theorem epochNat_mono {s t : Nat} (hst : s ≤ t) : E.epochNat s ≤ E.epochNat t := by
  by_cases ht : t < E.firstNormalSlot.toNat
  · have hs : s < E.firstNormalSlot.toNat := by omega
    unfold epochNat
    rw [if_pos hs, if_pos ht]
    exact Nat.sub_le_sub_right (log2_le_log2 (by omega) (by omega)) 5
  · by_cases hs : s < E.firstNormalSlot.toNat
    · exact (epochNat_lt_of_warmup hv hs).le.trans (le_epochNat_of_normal ht)
    · unfold epochNat
      rw [if_neg hs, if_neg ht]
      exact Nat.add_le_add_left (Nat.div_le_div_right (by omega)) _

theorem stakersEpochNat_mono {s t : Nat} (hst : s ≤ t) :
    E.stakersEpochNat s ≤ E.stakersEpochNat t := by
  by_cases ht : t < E.firstNormalSlot.toNat
  · have hs : s < E.firstNormalSlot.toNat := by omega
    unfold stakersEpochNat
    rw [if_pos hs, if_pos ht]
    exact Nat.add_le_add_right (epochNat_mono hv hst) 1
  · by_cases hs : s < E.firstNormalSlot.toNat
    · -- a warmup slot saves at most the first normal epoch
      have hlt := epochNat_lt_of_warmup hv hs
      unfold stakersEpochNat
      rw [if_pos hs, if_neg ht]
      exact (Nat.succ_le_of_lt hlt).trans (Nat.le_add_right _ _)
    · unfold stakersEpochNat
      rw [if_neg hs, if_neg ht]
      exact Nat.add_le_add_left (Nat.div_le_div_right (by omega)) _

/-- The last slot of the warmup is in the epoch before the first normal one. -/
theorem epochNat_last_warmup {s : Nat} (hs : s + 1 = E.firstNormalSlot.toNat) :
    E.epochNat s + 1 = E.firstNormalEpoch.toNat := by
  have hS := hv.firstNormalSlot_add
  have hpos : 0 < E.firstNormalEpoch.toNat := by
    by_contra h0
    rw [show E.firstNormalEpoch.toNat = 0 by omega] at hS
    omega
  have hne : s + 32 ≠ 0 := by omega
  have hhalf : 2 ^ (E.firstNormalEpoch.toNat + 5) = 2 * 2 ^ (E.firstNormalEpoch.toNat + 4) := by
    rw [show E.firstNormalEpoch.toNat + 5 = E.firstNormalEpoch.toNat + 4 + 1 by omega,
      Nat.pow_succ, Nat.mul_comm]
  have h32 : 32 ≤ 2 ^ (E.firstNormalEpoch.toNat + 4) :=
    le_trans (by norm_num : 32 ≤ 2 ^ 5) (Nat.pow_le_pow_right (by norm_num) (by omega))
  -- `s + 32 = 2 ^ (F + 5) - 1`, so its `log2` is `F + 4`
  have hlo : E.firstNormalEpoch.toNat + 4 ≤ Nat.log2 (s + 32) := (Nat.le_log2 hne).2 (by omega)
  have hhi : Nat.log2 (s + 32) < E.firstNormalEpoch.toNat + 5 := (Nat.log2_lt hne).2 (by omega)
  unfold epochNat
  rw [if_pos (by omega)]
  omega

/-- From one slot to the next the epoch grows by at most one. -/
theorem epochNat_succ_le (s : Nat) : E.epochNat (s + 1) ≤ E.epochNat s + 1 := by
  have hS := hv.firstNormalSlot_add
  have hP := hv.slotsPerEpoch_ge
  by_cases hs1 : s + 1 < E.firstNormalSlot.toNat
  · -- in the warmup: `s + 33 < 2 ^ (log2 (s + 32) + 2)`
    obtain ⟨h5, -, hlo, hhi⟩ := log2_warmup (F := E.firstNormalEpoch.toNat) (s := s) (by omega)
    have hnext : Nat.log2 (s + 1 + 32) < Nat.log2 (s + 32) + 2 := by
      refine (Nat.log2_lt (by omega)).2 ?_
      rw [Nat.pow_succ, Nat.pow_succ]
      omega
    unfold epochNat
    rw [if_pos hs1, if_pos (by omega)]
    omega
  · by_cases hs : s < E.firstNormalSlot.toNat
    · have hlast := epochNat_last_warmup hv (s := s) (by omega)
      unfold epochNat at hlast ⊢
      rw [if_neg hs1, show s + 1 - E.firstNormalSlot.toNat = 0 by omega, Nat.zero_div]
      omega
    · unfold epochNat
      rw [if_neg hs1, if_neg hs, show s + 1 - E.firstNormalSlot.toNat =
        s - E.firstNormalSlot.toNat + 1 by omega]
      have := succ_div_le (s - E.firstNormalSlot.toNat) (d := E.slotsPerEpoch.toNat) (by omega)
      omega

/-- With an offset of at most one epoch the stakers epoch grows by at most one from a slot to the
next, also from the last warmup slot to the first normal one. -/
theorem stakersEpochNat_succ_le (hoffset : E.stakersSlotOffset.toNat ≤ E.slotsPerEpoch.toNat)
    (s : Nat) : E.stakersEpochNat (s + 1) ≤ E.stakersEpochNat s + 1 := by
  have hP := hv.slotsPerEpoch_ge
  by_cases hs1 : s + 1 < E.firstNormalSlot.toNat
  · have := epochNat_succ_le hv s
    unfold stakersEpochNat
    rw [if_pos hs1, if_pos (by omega)]
    omega
  · by_cases hs : s < E.firstNormalSlot.toNat
    · -- across the first normal slot: at most `offset / slots_per_epoch ≤ 1` epochs ahead
      have hlast := epochNat_last_warmup hv (s := s) (by omega)
      have hdiv : E.stakersSlotOffset.toNat / E.slotsPerEpoch.toNat ≤ 1 := by
        calc E.stakersSlotOffset.toNat / E.slotsPerEpoch.toNat
            ≤ E.slotsPerEpoch.toNat / E.slotsPerEpoch.toNat := Nat.div_le_div_right hoffset
          _ = 1 := Nat.div_self (by omega)
      unfold stakersEpochNat
      rw [if_neg hs1, if_pos hs, show s + 1 - E.firstNormalSlot.toNat = 0 by omega, Nat.zero_add]
      omega
    · unfold stakersEpochNat
      rw [if_neg hs1, if_neg hs, show s + 1 - E.firstNormalSlot.toNat + E.stakersSlotOffset.toNat =
        s - E.firstNormalSlot.toNat + E.stakersSlotOffset.toNat + 1 by omega]
      have := succ_div_le (s - E.firstNormalSlot.toNat + E.stakersSlotOffset.toNat)
        (d := E.slotsPerEpoch.toNat) (by omega)
      omega

/-- Every epoch holds between 32 and `2 ^ 62` slots. -/
theorem slotsInEpochNat_bounds (e : Nat) :
    32 ≤ E.slotsInEpochNat e ∧ E.slotsInEpochNat e ≤ 2 ^ 62 := by
  have hF := hv.firstNormalEpoch_le
  unfold slotsInEpochNat
  split_ifs with he
  · exact ⟨le_trans (by norm_num : 32 ≤ 2 ^ 5) (Nat.pow_le_pow_right (by norm_num) (by omega)),
      Nat.pow_le_pow_right (by norm_num) (by omega)⟩
  · exact ⟨hv.slotsPerEpoch_ge, hv.slotsPerEpoch_le⟩

/-- The epoch of a slot is far below the slot's own bound: at most `57 + s / 32`. -/
theorem epochNat_le (s : Nat) : E.epochNat s ≤ 57 + s / 32 := by
  have hF := hv.firstNormalEpoch_le
  by_cases hs : s < E.firstNormalSlot.toNat
  · exact (epochNat_lt_of_warmup hv hs).le.trans (by omega)
  · have hq : (s - E.firstNormalSlot.toNat) / E.slotsPerEpoch.toNat ≤
        (s - E.firstNormalSlot.toNat) / 32 := Nat.div_le_div_left hv.slotsPerEpoch_ge (by norm_num)
    unfold epochNat
    rw [if_neg hs]
    have : (s - E.firstNormalSlot.toNat) / 32 ≤ s / 32 := Nat.div_le_div_right (Nat.sub_le _ _)
    omega

/-- The stakers epoch of a slot is at most `58 + (s + offset) / 32`. -/
theorem stakersEpochNat_le (s : Nat) :
    E.stakersEpochNat s ≤ 58 + (s + E.stakersSlotOffset.toNat) / 32 := by
  have hF := hv.firstNormalEpoch_le
  unfold stakersEpochNat
  split_ifs with hs
  · have := epochNat_lt_of_warmup hv hs
    omega
  · have hq : (s - E.firstNormalSlot.toNat + E.stakersSlotOffset.toNat) / E.slotsPerEpoch.toNat ≤
        (s - E.firstNormalSlot.toNat + E.stakersSlotOffset.toNat) / 32 :=
      Nat.div_le_div_left hv.slotsPerEpoch_ge (by norm_num)
    have : (s - E.firstNormalSlot.toNat + E.stakersSlotOffset.toNat) / 32 ≤
        (s + E.stakersSlotOffset.toNat) / 32 := Nat.div_le_div_right (by omega)
    omega

end Nat

/-! ## The code's arithmetic on valid schedules

On a valid schedule no getter wraps where the slots and epochs are in range, so each reads as its
counterpart above. -/

theorem toNat_minimumSlotLength : (UInt64.ofNat MINIMUM_SLOT_LENGTH).toNat = 32 := by decide

section Bridge

variable {E} (hv : E.Valid)
include hv

/-- In the warmup the code finds the epoch `log2 (s + 32) - 5` from the trailing zeros of the
power of two above `s + 32`. -/
theorem toNat_warmupEpoch {s : UInt64} (hs : s.toNat < E.firstNormalSlot.toNat) :
    (trailingZeros (nextPowerOfTwo (s + UInt64.ofNat MINIMUM_SLOT_LENGTH + 1)) -
      minimumSlotLengthZeros - 1).toNat = Nat.log2 (s.toNat + 32) - 5 := by
  have hS := hv.firstNormalSlot_add
  have hF := hv.firstNormalEpoch_le
  obtain ⟨h5, hlt, -, -⟩ := log2_warmup (F := E.firstNormalEpoch.toNat) (s := s.toNat) (by omega)
  have hbound : 2 ^ (E.firstNormalEpoch.toNat + 5) ≤ 2 ^ 62 :=
    Nat.pow_le_pow_right (by norm_num) (by omega)
  have hsum : (s + UInt64.ofNat MINIMUM_SLOT_LENGTH + 1).toNat = s.toNat + 32 + 1 := by
    simp only [UInt64.toNat_add, toNat_minimumSlotLength, UInt64.toNat_one]
    omega
  have hnp := toNat_nextPowerOfTwo (x := s + UInt64.ofNat MINIMUM_SLOT_LENGTH + 1)
    (by omega) (by omega)
  rw [hsum, show s.toNat + 32 + 1 - 1 = s.toNat + 32 by omega] at hnp
  have htz := toNat_trailingZeros hnp (by omega)
  generalize trailingZeros (nextPowerOfTwo (s + UInt64.ofNat MINIMUM_SLOT_LENGTH + 1)) = tz at htz ⊢
  simp only [UInt32.toNat_sub, htz, minimumSlotLengthZeros_toNat, UInt32.toNat_one]
  omega

/-- `get_epoch_and_slot_index` is the epoch and index of the schedule. -/
theorem toNat_getEpochAndSlotIndex (s : UInt64) :
    (E.getEpochAndSlotIndex s).1.toNat = E.epochNat s.toNat ∧
      (E.getEpochAndSlotIndex s).2.toNat = E.slotIndexNat s.toNat := by
  have hS := hv.firstNormalSlot_add
  have hF := hv.firstNormalEpoch_le
  have hP := hv.slotsPerEpoch_ge
  have hs64 := UInt64.toNat_lt s
  unfold getEpochAndSlotIndex epochNat slotIndexNat
  by_cases hs : s < E.firstNormalSlot
  · -- the warmup: the slot less the slots of the epochs before its own
    have hsn : s.toNat < E.firstNormalSlot.toNat := UInt64.lt_iff_toNat_lt.1 hs
    have he := toNat_warmupEpoch hv hsn
    obtain ⟨h5, hlt, hlo, -⟩ :=
      log2_warmup (F := E.firstNormalEpoch.toNat) (s := s.toNat) (by omega)
    have h32 : 32 ≤ 2 ^ Nat.log2 (s.toNat + 32) :=
      le_trans (by norm_num : 32 ≤ 2 ^ 5) (Nat.pow_le_pow_right (by norm_num) h5)
    rw [if_pos hs, if_pos hsn, if_pos hsn]
    dsimp only
    generalize trailingZeros (nextPowerOfTwo (s + UInt64.ofNat MINIMUM_SLOT_LENGTH + 1)) -
      minimumSlotLengthZeros - 1 = epoch at he ⊢
    have hlen : (epoch + minimumSlotLengthZeros).toNat = Nat.log2 (s.toNat + 32) := by
      simp only [UInt32.toNat_add, he, minimumSlotLengthZeros_toNat]
      omega
    have hpow := @toNat_pow2 (epoch + minimumSlotLengthZeros) (by rw [hlen]; omega)
    rw [hlen] at hpow
    have hfit : 2 ^ Nat.log2 (s.toNat + 32) < 2 ^ 64 := Nat.pow_lt_pow_right (by norm_num) (by omega)
    refine ⟨by rw [UInt32.toNat_toUInt64, he], ?_⟩
    simp only [UInt64.toNat_sub, hpow, toNat_minimumSlotLength]
    omega
  · -- the normal epochs: quotient and remainder past the first normal slot
    have hsn : ¬ s.toNat < E.firstNormalSlot.toNat := fun h => hs (UInt64.lt_iff_toNat_lt.2 h)
    rw [if_neg hs, if_neg hsn, if_neg hsn]
    -- the quotient is at most `s / 32`, so adding the first normal epoch does not wrap
    have hq : (s.toNat - E.firstNormalSlot.toNat) / E.slotsPerEpoch.toNat ≤
        (s.toNat - E.firstNormalSlot.toNat) / 32 := Nat.div_le_div_left hP (by norm_num)
    have hsub : (s - E.firstNormalSlot).toNat = s.toNat - E.firstNormalSlot.toNat :=
      UInt64.toNat_sub_of_le _ _ (UInt64.not_lt.1 hs)
    simp only [UInt64.toNat_add, UInt64.toNat_div, UInt64.toNat_mod, hsub, and_true]
    generalize (s.toNat - E.firstNormalSlot.toNat) / E.slotsPerEpoch.toNat = q at hq
    omega

/-- `get_slots_in_epoch` is the length of the epoch. -/
theorem toNat_getSlotsInEpoch (e : UInt64) :
    (E.getSlotsInEpoch e).toNat = E.slotsInEpochNat e.toNat := by
  have hF := hv.firstNormalEpoch_le
  unfold getSlotsInEpoch slotsInEpochNat
  by_cases he : e < E.firstNormalEpoch
  · -- a warmup epoch: below 57, so neither the `u32` cast nor the power wraps
    have hen : e.toNat < E.firstNormalEpoch.toNat := UInt64.lt_iff_toNat_lt.1 he
    have hexp : (e.toUInt32 + minimumSlotLengthZeros).toNat = e.toNat + 5 := by
      simp only [UInt32.toNat_add, UInt64.toNat_toUInt32, minimumSlotLengthZeros_toNat]
      omega
    rw [if_pos he, if_pos hen, toNat_pow2 (by omega), hexp]
  · have hen : ¬ e.toNat < E.firstNormalEpoch.toNat := fun h => he (UInt64.lt_iff_toNat_lt.2 h)
    rw [if_neg he, if_neg hen]

/-- `get_first_slot_in_epoch` is the first slot of the epoch, where that slot fits in 64 bits. -/
theorem toNat_getFirstSlotInEpoch {e : UInt64} (h : E.firstSlotNat e.toNat < 2 ^ 64) :
    (E.getFirstSlotInEpoch e).toNat = E.firstSlotNat e.toNat := by
  have hF := hv.firstNormalEpoch_le
  unfold getFirstSlotInEpoch firstSlotNat at *
  by_cases he : e ≤ E.firstNormalEpoch
  · -- the warmup: `(2 ^ e - 1) * 32 = 2 ^ (e + 5) - 32`
    have hen : e.toNat ≤ E.firstNormalEpoch.toNat := UInt64.le_iff_toNat_le.1 he
    have hexp : e.toUInt32.toNat = e.toNat := by
      rw [UInt64.toNat_toUInt32]
      omega
    have hpow := @toNat_pow2 e.toUInt32 (by omega)
    rw [hexp] at hpow
    have hfit : 2 ^ e.toNat ≤ 2 ^ 57 := Nat.pow_le_pow_right (by norm_num) (by omega)
    have hone : 1 ≤ 2 ^ e.toNat := Nat.one_le_two_pow
    have hmul : 2 ^ (e.toNat + 5) = 2 ^ e.toNat * 32 := by rw [Nat.pow_add]
    rw [if_pos he, if_pos hen, hmul]
    simp only [UInt64.toNat_mul, UInt64.toNat_sub, hpow, toNat_minimumSlotLength, UInt64.toNat_one]
    omega
  · have hen : ¬ e.toNat ≤ E.firstNormalEpoch.toNat := fun h => he (UInt64.le_iff_toNat_le.2 h)
    rw [if_neg hen] at h
    have hsub : (e - E.firstNormalEpoch).toNat = e.toNat - E.firstNormalEpoch.toNat :=
      UInt64.toNat_sub_of_le _ _ (UInt64.le_of_lt (UInt64.not_le.1 he))
    rw [if_neg he, if_neg hen]
    simp only [UInt64.toNat_add, UInt64.toNat_mul, hsub]
    omega

/-- `get_last_slot_in_epoch` is the slot before the next epoch's first, where that fits. -/
theorem toNat_getLastSlotInEpoch {e : UInt64}
    (h : E.firstSlotNat e.toNat + E.slotsInEpochNat e.toNat < 2 ^ 64) :
    (E.getLastSlotInEpoch e).toNat = E.firstSlotNat e.toNat + E.slotsInEpochNat e.toNat - 1 := by
  have hslots := (slotsInEpochNat_bounds hv e.toNat).1
  unfold getLastSlotInEpoch
  simp only [UInt64.toNat_sub, UInt64.toNat_add, toNat_getFirstSlotInEpoch hv (e := e) (by omega),
    toNat_getSlotsInEpoch hv, UInt64.toNat_one]
  omega

/-- `get_stakers_epoch` is the stakers epoch, for slots below `2 ^ 62`. -/
theorem toNat_getStakersEpoch {s : UInt64} (hs : s.toNat < 2 ^ 62) :
    (E.getStakersEpoch s).toNat = E.stakersEpochNat s.toNat := by
  have hF := hv.firstNormalEpoch_le
  have hO := hv.offset_le
  have hP := hv.slotsPerEpoch_ge
  unfold getStakersEpoch stakersEpochNat
  by_cases hw : s < E.firstNormalSlot
  · have hwn : s.toNat < E.firstNormalSlot.toNat := UInt64.lt_iff_toNat_lt.1 hw
    have hlt := epochNat_lt_of_warmup hv hwn
    rw [if_pos hw, if_pos hwn, UInt64.toNat_add, (toNat_getEpochAndSlotIndex hv s).1,
      UInt64.toNat_one]
    omega
  · -- the slots past the first normal one, with the offset, stay below `2 ^ 63`
    have hwn : ¬ s.toNat < E.firstNormalSlot.toNat := fun h => hw (UInt64.lt_iff_toNat_lt.2 h)
    have hsub : (s - E.firstNormalSlot).toNat = s.toNat - E.firstNormalSlot.toNat :=
      UInt64.toNat_sub_of_le _ _ (UInt64.not_lt.1 hw)
    have hq : (s.toNat - E.firstNormalSlot.toNat + E.stakersSlotOffset.toNat) /
        E.slotsPerEpoch.toNat ≤ s.toNat - E.firstNormalSlot.toNat + E.stakersSlotOffset.toNat :=
      Nat.div_le_self _ _
    rw [if_neg hw, if_neg hwn]
    simp only [UInt64.toNat_add, UInt64.toNat_div, hsub]
    rw [Nat.mod_eq_of_lt (show s.toNat - E.firstNormalSlot.toNat + E.stakersSlotOffset.toNat <
      2 ^ 64 by omega)]
    generalize (s.toNat - E.firstNormalSlot.toNat + E.stakersSlotOffset.toNat) /
      E.slotsPerEpoch.toNat = q at hq ⊢
    omega

end Bridge

/-! ## What the schedule guarantees -/

/-- The laws of the schedule's arithmetic for the slots below `2 ^ 62`: a slot is the first slot of
its epoch plus its index, the index lies inside the epoch, consecutive epochs meet, epochs and
stakers epochs are monotone and grow by at most one a slot (the stakers epoch when the offset is
at most one epoch), and the stakers epoch is never behind the slot's own. -/
structure Consistent : Prop where
  first_add_index : ∀ s : UInt64, s.toNat < 2 ^ 62 →
    E.getFirstSlotInEpoch (E.getEpochAndSlotIndex s).1 + (E.getEpochAndSlotIndex s).2 = s
  index_lt : ∀ s : UInt64, s.toNat < 2 ^ 62 →
    (E.getEpochAndSlotIndex s).2 < E.getSlotsInEpoch (E.getEpochAndSlotIndex s).1
  last_add_one : ∀ s : UInt64, s.toNat < 2 ^ 62 →
    E.getLastSlotInEpoch (E.getEpochAndSlotIndex s).1 + 1 =
      E.getFirstSlotInEpoch ((E.getEpochAndSlotIndex s).1 + 1)
  epoch_mono : ∀ s t : UInt64, s ≤ t → t.toNat < 2 ^ 62 →
    (E.getEpochAndSlotIndex s).1 ≤ (E.getEpochAndSlotIndex t).1
  epoch_succ_le : ∀ s : UInt64, s.toNat + 1 < 2 ^ 62 →
    (E.getEpochAndSlotIndex (s + 1)).1 ≤ (E.getEpochAndSlotIndex s).1 + 1
  epoch_le_stakers : ∀ s : UInt64, s.toNat < 2 ^ 62 →
    (E.getEpochAndSlotIndex s).1 ≤ E.getStakersEpoch s
  stakers_mono : ∀ s t : UInt64, s ≤ t → t.toNat < 2 ^ 62 →
    E.getStakersEpoch s ≤ E.getStakersEpoch t
  stakers_succ_le : E.stakersSlotOffset ≤ E.slotsPerEpoch → ∀ s : UInt64, s.toNat + 1 < 2 ^ 62 →
    E.getStakersEpoch (s + 1) ≤ E.getStakersEpoch s + 1

section Guarantees

variable {E} (hv : E.Valid)
include hv

/-- A slot below `2 ^ 62` is the first slot of its epoch plus its index, the index is inside the
epoch, and the epoch's last slot is followed by the next epoch's first. -/
theorem getEpochAndSlotIndex_covers {s : UInt64} (hs : s.toNat < 2 ^ 62) :
    E.getFirstSlotInEpoch (E.getEpochAndSlotIndex s).1 + (E.getEpochAndSlotIndex s).2 = s ∧
      (E.getEpochAndSlotIndex s).2 < E.getSlotsInEpoch (E.getEpochAndSlotIndex s).1 ∧
      E.getLastSlotInEpoch (E.getEpochAndSlotIndex s).1 + 1 =
        E.getFirstSlotInEpoch ((E.getEpochAndSlotIndex s).1 + 1) := by
  obtain ⟨he, hi⟩ := toNat_getEpochAndSlotIndex hv s
  generalize (E.getEpochAndSlotIndex s).1 = e at he ⊢
  generalize (E.getEpochAndSlotIndex s).2 = i at hi ⊢
  -- the unbounded facts, and bounds that keep every step below `2 ^ 64`
  have hadd := firstSlotNat_epochNat_add hv s.toNat
  have hlt := slotIndexNat_lt hv s.toNat
  have hnext := firstSlotNat_add_slotsInEpochNat hv (E.epochNat s.toNat)
  have hslots := slotsInEpochNat_bounds hv (E.epochNat s.toNat)
  have hele := epochNat_le hv s.toNat
  have he1 : (e + 1).toNat = E.epochNat s.toNat + 1 := by
    rw [UInt64.toNat_add, he, UInt64.toNat_one]
    omega
  have hfirst := toNat_getFirstSlotInEpoch hv (e := e) (by rw [he]; omega)
  have hfirst1 := toNat_getFirstSlotInEpoch hv (e := e + 1) (by rw [he1]; omega)
  have hlast := toNat_getLastSlotInEpoch hv (e := e) (by rw [he]; omega)
  refine ⟨?_, ?_, ?_⟩
  · apply UInt64.toNat_inj.1
    rw [UInt64.toNat_add, hfirst, hi, he, hadd]
    omega
  · rw [UInt64.lt_iff_toNat_lt, hi, toNat_getSlotsInEpoch hv, he]
    exact hlt
  · apply UInt64.toNat_inj.1
    rw [UInt64.toNat_add, hlast, hfirst1, he1, he, UInt64.toNat_one, ← hnext]
    omega

theorem getEpochAndSlotIndex_mono {s t : UInt64} (hst : s ≤ t) :
    (E.getEpochAndSlotIndex s).1 ≤ (E.getEpochAndSlotIndex t).1 := by
  rw [UInt64.le_iff_toNat_le, (toNat_getEpochAndSlotIndex hv s).1,
    (toNat_getEpochAndSlotIndex hv t).1]
  exact epochNat_mono hv (UInt64.le_iff_toNat_le.1 hst)

theorem getEpochAndSlotIndex_succ_le {s : UInt64} (hs : s.toNat + 1 < 2 ^ 64) :
    (E.getEpochAndSlotIndex (s + 1)).1 ≤ (E.getEpochAndSlotIndex s).1 + 1 := by
  have hele := epochNat_le hv s.toNat
  have hs1 : (s + 1).toNat = s.toNat + 1 := by
    rw [UInt64.toNat_add, UInt64.toNat_one]
    omega
  rw [UInt64.le_iff_toNat_le, (toNat_getEpochAndSlotIndex hv _).1, hs1, UInt64.toNat_add,
    (toNat_getEpochAndSlotIndex hv s).1, UInt64.toNat_one,
    Nat.mod_eq_of_lt (show E.epochNat s.toNat + 1 < 2 ^ 64 by omega)]
  exact epochNat_succ_le hv s.toNat

theorem le_getStakersEpoch {s : UInt64} (hs : s.toNat < 2 ^ 62) :
    (E.getEpochAndSlotIndex s).1 ≤ E.getStakersEpoch s := by
  rw [UInt64.le_iff_toNat_le, (toNat_getEpochAndSlotIndex hv s).1, toNat_getStakersEpoch hv hs]
  exact epochNat_le_stakersEpochNat s.toNat

theorem getStakersEpoch_mono {s t : UInt64} (hst : s ≤ t) (ht : t.toNat < 2 ^ 62) :
    E.getStakersEpoch s ≤ E.getStakersEpoch t := by
  have hst' := UInt64.le_iff_toNat_le.1 hst
  rw [UInt64.le_iff_toNat_le, toNat_getStakersEpoch hv (by omega), toNat_getStakersEpoch hv ht]
  exact stakersEpochNat_mono hv hst'

theorem getStakersEpoch_succ_le (hoffset : E.stakersSlotOffset ≤ E.slotsPerEpoch) {s : UInt64}
    (hs : s.toNat + 1 < 2 ^ 62) :
    E.getStakersEpoch (s + 1) ≤ E.getStakersEpoch s + 1 := by
  have hle := stakersEpochNat_le hv s.toNat
  have hO := hv.offset_le
  have hs1 : (s + 1).toNat = s.toNat + 1 := by
    rw [UInt64.toNat_add, UInt64.toNat_one]
    omega
  have hstep := stakersEpochNat_succ_le hv (UInt64.le_iff_toNat_le.1 hoffset) s.toNat
  rw [UInt64.le_iff_toNat_le, toNat_getStakersEpoch hv (by omega), hs1, UInt64.toNat_add,
    toNat_getStakersEpoch hv (by omega), UInt64.toNat_one,
    Nat.mod_eq_of_lt (show E.stakersEpochNat s.toNat + 1 < 2 ^ 64 by omega)]
  exact hstep

end Guarantees

theorem Valid.consistent {E : EpochSchedule} (hv : E.Valid) : E.Consistent where
  first_add_index _ hs := (getEpochAndSlotIndex_covers hv hs).1
  index_lt _ hs := (getEpochAndSlotIndex_covers hv hs).2.1
  last_add_one _ hs := (getEpochAndSlotIndex_covers hv hs).2.2
  epoch_mono _ _ hst _ := getEpochAndSlotIndex_mono hv hst
  epoch_succ_le _ hs := getEpochAndSlotIndex_succ_le hv (by omega)
  epoch_le_stakers _ hs := le_getStakersEpoch hv hs
  stakers_mono _ _ hst ht := getStakersEpoch_mono hv hst ht
  stakers_succ_le hoffset _ hs := getStakersEpoch_succ_le hv hoffset hs

/-- Every schedule `new` builds with at most `2 ^ 62` slots an epoch and an offset of at most
`2 ^ 62` slots keeps the laws of its arithmetic. -/
theorem new_schedule_consistent {slotsPerEpoch stakersSlotOffset : UInt64} {warmup : Bool}
    {E : EpochSchedule} (h : new slotsPerEpoch stakersSlotOffset warmup = some E)
    (hslots : slotsPerEpoch.toNat ≤ 2 ^ 62) (hoffset : stakersSlotOffset.toNat ≤ 2 ^ 62) :
    E.Consistent :=
  (new_valid h hslots hoffset).consistent

/-- The warmup schedule of 48 slots an epoch with an offset of 16. -/
theorem new_schedule_consistent_warmup :
    new 48 16 true = some ⟨48, 16, 1, 32⟩ ∧ (48 : UInt64).toNat ≤ 2 ^ 62 ∧
      (16 : UInt64).toNat ≤ 2 ^ 62 ∧ (⟨48, 16, 1, 32⟩ : EpochSchedule).Consistent :=
  ⟨by decide, by decide, by decide,
    @new_schedule_consistent 48 16 true _ (by decide) (by decide) (by decide)⟩

/-- An offset of `u64::MAX` wraps `slot - first_normal_slot + stakers_slot_offset`: slot 32 of
epoch 1 saves the stakers of epoch 0. -/
theorem stakers_epoch_behind_with_max_offset :
    (new 32 0xFFFFFFFFFFFFFFFF false).map
      (fun E => ((E.getEpochAndSlotIndex 32).1, E.getStakersEpoch 32)) = some (1, 0) := by
  decide



end EpochSchedule
end Morgan
