import Mathlib
import Morgan.Core.ReplayStage
import Morgan.Core.LocktowerProof
import Morgan.Lib.Greatest

/-!
# The replay stage votes on a heaviest bank, and only as the locktower allows

A pass of the replay loop votes on a frozen bank that passes every filter of
`generate_votable_banks`, and whose weight is at least that of every frozen bank that passes them
(`vote_on_heaviest_votable_bank`).  Its votes are votes of the locktower that `has_voted` and
`is_locked_out` accept against the pass's bank forks: a run of passes against bank forks built from
a fork tree is a `TowerRun` of the locktower (`replay_votes_are_tower_votes`), whose votes stay on
one fork.
-/

namespace Morgan

namespace ReplayStage

open StakedLocktower

/-- A bank passes the filters of `generate_votable_banks` with a weight exactly when it is
votable, of a recent epoch, not voted on and not locked out, and its collected lockouts pass the
vote stake threshold and weigh that much. -/
theorem votableWeight_eq_some_some {t : StakedLocktower} {descendants : DescendantsMap}
    {ancestors : AncestorsMap} {frozenBank : FrozenBank} {w : Nat} :
    votableWeight t descendants ancestors frozenBank = some (some w) ↔
      frozenBank.isVotable = true ∧ t.isRecentEpoch frozenBank.bank = true ∧
        t.hasVoted frozenBank.bank.slot = false ∧
        t.isLockedOut frozenBank.bank.slot descendants = some false ∧
        ∃ m, t.collectVoteLockouts frozenBank.bank.slot frozenBank.bank.stakes.voteAccounts
            ancestors = some m ∧
          t.checkVoteStakeThreshold frozenBank.bank.slot m = true ∧ t.calculateWeight m = w := by
  unfold votableWeight
  dsimp only
  generalize frozenBank.isVotable = votable
  generalize t.isRecentEpoch frozenBank.bank = recent
  generalize t.hasVoted frozenBank.bank.slot = voted
  generalize t.isLockedOut frozenBank.bank.slot descendants = lockedOut
  generalize t.collectVoteLockouts frozenBank.bank.slot frozenBank.bank.stakes.voteAccounts
    ancestors = collected
  cases votable <;> cases recent <;> cases voted <;> simp
  -- the bank passes the first three filters: what remains are the panics and the threshold
  rcases lockedOut with _ | _ | _ <;> rcases collected with _ | m <;> simp
  cases t.checkVoteStakeThreshold frozenBank.bank.slot m <;> simp

/-- The last bank `generate_votable_banks` returns passes its filters, and weighs at least as much
as every frozen bank that passes them. -/
theorem generateVotableBanks_getLast? {t : StakedLocktower} {descendants : DescendantsMap}
    {ancestors : AncestorsMap} {frozenBanks : List FrozenBank} {votable : List (Nat × FrozenBank)}
    (h : generateVotableBanks t descendants ancestors frozenBanks = some votable)
    {w : Nat} {frozenBank : FrozenBank} (hlast : votable.getLast? = some (w, frozenBank)) :
    frozenBank ∈ frozenBanks ∧ votableWeight t descendants ancestors frozenBank = some (some w) ∧
      ∀ b ∈ frozenBanks, ∀ w', votableWeight t descendants ancestors b = some (some w') →
        w' ≤ w := by
  unfold generateVotableBanks at h
  rw [Option.bind_eq_bind, Option.bind_eq_some_iff] at h
  obtain ⟨weighed, hweighed, hsort⟩ := h
  cases hsort
  obtain ⟨hmem, hmax⟩ := Greatest.getLast?_mergeSort_spec hlast
  -- what the filter keeps are the weighed banks
  have hkeep := Machine.mem_of_filterMapM hweighed
  have hweight : ∀ w' b, (w', b) ∈ weighed ↔
      b ∈ frozenBanks ∧ votableWeight t descendants ancestors b = some (some w') := by
    intro w' b
    rw [hkeep]
    constructor
    · rintro ⟨a, ha, hfa⟩
      obtain ⟨o, ho, hfo⟩ := Option.map_eq_some_iff.1 hfa
      obtain ⟨w'', rfl, hpair⟩ := Option.map_eq_some_iff.1 hfo
      cases hpair
      exact ⟨ha, ho⟩
    · rintro ⟨hb, hw⟩
      exact ⟨b, hb, by simp [hw]⟩
  obtain ⟨hbank, hw⟩ := (hweight w frozenBank).1 hmem
  exact ⟨hbank, hw, fun b hb w' hw' => hmax (w', b) ((hweight w' b).2 ⟨hb, hw'⟩)⟩

/-- A pass that votes votes on a frozen bank that passes every filter of
`generate_votable_banks` and weighs at least as much as every frozen bank that passes them. -/
theorem vote_on_heaviest_votable_bank {t t' : StakedLocktower} {pass : ReplayPass} {slot : Slot}
    (h : votePass t pass = some (t', [slot])) :
    ∃ frozenBank ∈ pass.frozenBanks, frozenBank.bank.slot = slot ∧
      ∃ w, votableWeight t pass.forks.descendants pass.ancestors frozenBank = some (some w) ∧
        ∀ b ∈ pass.frozenBanks, ∀ w',
          votableWeight t pass.forks.descendants pass.ancestors b = some (some w') → w' ≤ w := by
  unfold votePass at h
  rw [Option.bind_eq_bind, Option.bind_eq_some_iff] at h
  obtain ⟨votable, hvotable, h⟩ := h
  cases hlast : votable.getLast? with
  | none => simp [hlast] at h
  | some last =>
    obtain ⟨w, frozenBank⟩ := last
    simp only [hlast, Option.bind_eq_bind, Option.bind_eq_some_iff, Option.pure_def,
      Option.some.injEq, Prod.mk.injEq, List.cons.injEq, and_true] at h
    obtain ⟨_, _, -, rfl⟩ := h
    obtain ⟨hmem, hw, hmax⟩ := generateVotableBanks_getLast? hvotable hlast
    exact ⟨frozenBank, hmem, rfl, w, hw, hmax⟩

/-- The fork tree `0 ← 1 ← 2 ← ⋯`. -/
def chainParent (s : Slot) : Option Slot := if s = 0 then none else some (s - 1)

/-- Bank forks holding the frozen banks 0 and 1 of the chain. -/
def chainForks : BankForks := ⟨[⟨0, {0}, true⟩, ⟨1, {0, 1}, true⟩], 0, by decide⟩

theorem ancestorsFrom_chainForks : AncestorsFrom chainParent chainForks := by
  intro b hb a ha
  simp only [chainForks, List.mem_cons, List.not_mem_nil, or_false] at hb
  rcases hb with rfl | rfl
  · simp only [Finset.mem_singleton] at ha
    rw [ha]
  · simp only [Finset.mem_insert, Finset.mem_singleton] at ha
    rcases ha with rfl | rfl
    · exact ForkTree.AncestorOrSelf.of_parent (by decide)
    · rfl

/-- A locktower of epoch 0 with no stakes and an empty tower. -/
def idleLocktower : StakedLocktower :=
  StakedLocktower.new (EpochStakes.new 0 [] List.nodup_nil) VOTE_THRESHOLD_DEPTH VOTE_THRESHOLD_SIZE

/-- The votable bank at slot 1, in epoch 0, without vote accounts. -/
def bankOne : FrozenBank := ⟨⟨1, ⟨32, 32, 0, 0⟩, ⟨[]⟩, []⟩, default, true⟩

/-- A pass over the chain's bank forks with the frozen bank 1. -/
def passOne : ReplayPass := ⟨chainForks, fun _ => none, [bankOne]⟩

/-- The tower after the vote on slot 1. -/
def towerOne : Locktower := ⟨{ VoteState.default with votes := [⟨1, 1⟩] }, [⟨1, default⟩]⟩

theorem vote_on_heaviest_votable_bank_one :
    ∃ frozenBank ∈ passOne.frozenBanks, frozenBank.bank.slot = 1 ∧
      ∃ w, votableWeight idleLocktower passOne.forks.descendants passOne.ancestors frozenBank =
        some (some w) := by
  obtain ⟨frozenBank, hmem, hslot, w, hw, -⟩ := vote_on_heaviest_votable_bank
    (show votePass idleLocktower passOne =
      some ({ idleLocktower with toLocktower := towerOne }, [1]) by decide +kernel)
  exact ⟨frozenBank, hmem, hslot, w, hw⟩

/-- `update_epoch` changes the epoch stakes only. -/
theorem toLocktower_updateEpoch {t t' : StakedLocktower} {bank : StakesBank}
    (h : updateEpoch t bank = some t') : t'.toLocktower = t.toLocktower := by
  unfold updateEpoch at h
  split_ifs at h
  · obtain ⟨_, -, rfl⟩ := Option.map_eq_some_iff.1 h
    rfl
  · cases h
    rfl

/-- `handle_votable_bank` records the vote on the bank in the tower. -/
theorem recordVote_of_handleVotableBank {t t' : StakedLocktower} {forks : BankForks}
    {frozenBank : FrozenBank} (h : handleVotableBank t forks frozenBank = some t') :
    ∃ newRoot,
      t.recordVote frozenBank.bank.slot frozenBank.hash = some (t'.toLocktower, newRoot) := by
  unfold handleVotableBank at h
  cases hr : t.recordVote frozenBank.bank.slot frozenBank.hash with
  | none => simp [hr] at h
  | some recorded =>
    obtain ⟨tower, newRoot⟩ := recorded
    refine ⟨newRoot, ?_⟩
    have hupdate : updateEpoch { t with toLocktower := tower } frozenBank.bank = some t' := by
      rcases newRoot with _ | root
      · simpa [hr] using h
      · cases hroot : (forks.get root).isNone <;> simp_all
    rw [toLocktower_updateEpoch hupdate]

open Locktower in
/-- A pass extends a run of the locktower's votes: a pass that votes makes a vote that `has_voted`
and `is_locked_out` accepted against the pass's bank forks, and a pass that does not leaves the
tower as it is. -/
theorem towerRun_votePass {parent : Slot → Option Slot} {t₀ t t' : StakedLocktower}
    {pass : ReplayPass} {outs out : List Slot} (hanc : AncestorsFrom parent pass.forks)
    (hrun : TowerRun parent t₀.toLocktower t.toLocktower outs.getLast?)
    (h : votePass t pass = some (t', out)) :
    TowerRun parent t₀.toLocktower t'.toLocktower (outs ++ out).getLast? := by
  unfold votePass at h
  rw [Option.bind_eq_bind, Option.bind_eq_some_iff] at h
  obtain ⟨votable, hvotable, h⟩ := h
  cases hlast : votable.getLast? with
  | none =>
    simp only [hlast, Option.pure_def, Option.some.injEq, Prod.mk.injEq] at h
    obtain ⟨rfl, rfl⟩ := h
    simpa using hrun
  | some last =>
    obtain ⟨w, frozenBank⟩ := last
    simp only [hlast, Option.bind_eq_bind, Option.bind_eq_some_iff, Option.pure_def,
      Option.some.injEq, Prod.mk.injEq] at h
    obtain ⟨t'', hhandle, rfl, rfl⟩ := h
    obtain ⟨-, hw, -⟩ := generateVotableBanks_getLast? hvotable hlast
    obtain ⟨-, -, hvoted, hlocked, -⟩ := votableWeight_eq_some_some.1 hw
    obtain ⟨newRoot, hrecord⟩ := recordVote_of_handleVotableBank hhandle
    simpa using TowerRun.vote _ _ _ _ hrun hanc hvoted hlocked hrecord

theorem replay_votes_are_tower_votes {parent : Slot → Option Slot} {t₀ t : StakedLocktower}
    {passes : List ReplayPass} {slots : List Slot}
    (hforks : ∀ pass ∈ passes, AncestorsFrom parent pass.forks)
    (hrun : Machine.run votePass t₀ passes = some (t, slots)) :
    Locktower.TowerRun parent t₀.toLocktower t.toLocktower slots.getLast? := by
  have hinv := Machine.run_invariant_trace votePass (fun pass => AncestorsFrom parent pass.forks)
    (fun t outs => Locktower.TowerRun parent t₀.toLocktower t.toLocktower outs.getLast?)
    (fun _ _ _ _ _ hanc hinv h => towerRun_votePass hanc hinv h) hforks
    (show Locktower.TowerRun parent t₀.toLocktower t₀.toLocktower ([] : List Slot).getLast? from
      Locktower.TowerRun.start) hrun
  simpa using hinv

theorem replay_votes_are_tower_votes_one :
    Locktower.TowerRun chainParent idleLocktower.toLocktower towerOne (some 1) :=
  replay_votes_are_tower_votes (by simpa [passOne] using ancestorsFrom_chainForks)
    (show Machine.run votePass idleLocktower [passOne] =
      some ({ idleLocktower with toLocktower := towerOne }, [1]) by decide +kernel)

end ReplayStage

end Morgan
