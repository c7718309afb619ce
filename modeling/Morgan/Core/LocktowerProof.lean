import Morgan.Core.Locktower
import Morgan.Core.BankForksProof
import Morgan.Lib.ForkTree

/-!
# The tower votes on one fork

`is_locked_out` decides a vote by simulating it on a copy of the tower with the default hash;
`record_vote` then runs the same `process_vote_unchecked` with the bank's hash.  The hash only
feeds the `slot_hashes` check, which a vote always passes against its own pair, so the tower that
`record_vote` produces is the one `is_locked_out` inspected (`recordVote_lockouts`).  Every vote
of that tower other than the new slot, and its root, has the new slot among its descendants; when
the descendants map is built by `BankForks::descendants` from ancestor sets taken from a fork tree
(`AncestorsFrom`), this makes each of them an ancestor of the new slot
(`mem_descendants_ancestorOrSelf`).  The ancestors of one slot form a chain, so the tower never
holds votes on two conflicting forks (`tower_votes_stay_on_one_fork`).
-/

namespace Morgan

open ForkTree

/-! ## Descendants maps -/

/-- The banks' frozen ancestor sets come from the fork tree `parent`: every key of a bank's
`ancestors` map is the bank's slot or one of its ancestors. -/
def AncestorsFrom (parent : Slot → Option Slot) (forks : BankForks) : Prop :=
  ∀ b ∈ forks.banks, ∀ a ∈ b.ancestors, AncestorOrSelf parent a b.slot

theorem mem_descendants_ancestorOrSelf {parent : Slot → Option Slot} {forks : BankForks}
    (hanc : AncestorsFrom parent forks) {a s : Slot} {d : Finset Slot}
    (h : forks.descendants a = some d) (hs : s ∈ d) : AncestorOrSelf parent a s := by
  obtain ⟨b, hb, rfl, ha, -⟩ := BankForks.mem_descendants h hs
  exact hanc b hb a ha

/-! ## The simulated vote is the recorded vote -/

namespace VoteState

/-- A vote checked against its own slot and hash: the hash plays no further part. -/
theorem processVoteUnchecked_hash (s : VoteState) (slot : Slot) (h h' : Hash) :
    s.processVoteUnchecked ⟨slot, h⟩ = s.processVoteUnchecked ⟨slot, h'⟩ := by
  simp [processVoteUnchecked, processVote, Lockout.new]

end VoteState

namespace Locktower

theorem recordVote_lockouts {t t' : Locktower} {slot : Slot} {hash : Hash} {r : Option Slot}
    (h : t.recordVote slot hash = some (t', r)) :
    t'.lockouts = t.lockouts.processSlotVoteUnchecked slot := by
  have e : t'.lockouts = t.lockouts.processVoteUnchecked ⟨slot, hash⟩ := by
    unfold recordVote at h
    dsimp only at h
    split_ifs at h
    · obtain ⟨_, -, he⟩ := Option.map_eq_some_iff.1 h
      rw [← (Prod.mk.inj he).1]
    · rw [← (Prod.mk.inj (Option.some.inj h)).1]
  rw [e, VoteState.processSlotVoteUnchecked, VoteState.processVoteUnchecked_hash]

theorem lockedOutByVotes_eq_false {descendants : DescendantsMap} {slot : Slot} :
    ∀ {votes : List Lockout}, lockedOutByVotes descendants slot votes = some false →
      ∀ v ∈ votes, v.slot ≠ slot → ∃ d, descendants v.slot = some d ∧ slot ∈ d
  | [], _, v, hv, _ => absurd hv List.not_mem_nil
  | w :: ws, h, v, hv, hne => by
    unfold lockedOutByVotes at h
    by_cases hw : w.slot = slot
    · rw [if_pos hw] at h
      rcases List.mem_cons.1 hv with rfl | hv
      · exact absurd hw hne
      · exact lockedOutByVotes_eq_false h v hv hne
    · rw [if_neg hw] at h
      obtain ⟨d, hd, hrest⟩ := Option.bind_eq_some_iff.1 h
      by_cases hs : slot ∈ d
      · rw [if_pos hs] at hrest
        rcases List.mem_cons.1 hv with rfl | hv
        · exact ⟨d, hd, hs⟩
        · exact lockedOutByVotes_eq_false hrest v hv hne
      · rw [if_neg hs] at hrest
        cases hrest

/-- What a vote that is not locked out guarantees about the simulated tower. -/
theorem isLockedOut_eq_false {t : Locktower} {slot : Slot} {descendants : DescendantsMap}
    (h : t.isLockedOut slot descendants = some false) :
    (∀ v ∈ (t.lockouts.processSlotVoteUnchecked slot).votes, v.slot ≠ slot →
        ∃ d, descendants v.slot = some d ∧ slot ∈ d) ∧
      ∀ r, (t.lockouts.processSlotVoteUnchecked slot).rootSlot = some r →
        ∃ d, descendants r = some d ∧ slot ∈ d := by
  unfold isLockedOut at h
  obtain ⟨byVotes, hvotes, hrest⟩ := Option.bind_eq_some_iff.1 h
  cases byVotes with
  | true => cases hrest
  | false =>
    refine ⟨lockedOutByVotes_eq_false hvotes, fun r hr => ?_⟩
    simp only [Bool.false_eq_true, if_false, hr] at hrest
    obtain ⟨d, hd, hout⟩ := Option.map_eq_some_iff.1 hrest
    exact ⟨d, hd, by simpa using hout⟩

/-- The slots held by the tower: its votes and its root. -/
def towerSlots (t : Locktower) : List Slot :=
  t.lockouts.votes.map (·.slot) ++ t.lockouts.rootSlot.toList

theorem mem_towerSlots {t : Locktower} {s : Slot} :
    s ∈ t.towerSlots ↔ (∃ v ∈ t.lockouts.votes, v.slot = s) ∨ t.lockouts.rootSlot = some s := by
  simp [towerSlots, eq_comm]

/-! ## One vote, then a run of votes -/

section

variable {parent : Slot → Option Slot}

/-- After a vote that passed `is_locked_out` against bank forks built from the fork tree, every
slot of the tower is an ancestor of the new slot or the new slot itself. -/
theorem recordVote_ancestorOrSelf {forks : BankForks} (hanc : AncestorsFrom parent forks)
    {t t' : Locktower} {slot : Slot} {hash : Hash} {r : Option Slot}
    (hl : t.isLockedOut slot forks.descendants = some false)
    (hr : t.recordVote slot hash = some (t', r)) :
    ∀ s ∈ t'.towerSlots, AncestorOrSelf parent s slot := by
  obtain ⟨hvotes, hroot⟩ := isLockedOut_eq_false hl
  rw [← recordVote_lockouts hr] at hvotes hroot
  intro s hs
  rcases mem_towerSlots.1 hs with ⟨v, hv, rfl⟩ | hs
  · by_cases he : v.slot = slot
    · rw [he]
    · obtain ⟨d, hd, hsd⟩ := hvotes v hv he
      exact mem_descendants_ancestorOrSelf hanc hd hsd
  · obtain ⟨d, hd, hsd⟩ := hroot s hs
    exact mem_descendants_ancestorOrSelf hanc hd hsd

/-- A run of `record_vote` calls from the tower `t₀`, each on a slot that `has_voted` and
`is_locked_out` accepted against bank forks whose ancestor sets come from the fork tree
`parent`; the index is the slot of the most recent vote. -/
inductive TowerRun (parent : Slot → Option Slot) (t₀ : Locktower) : Locktower → Option Slot → Prop
  | start : TowerRun parent t₀ t₀ none
  | vote {t t' : Locktower} {last : Option Slot} (slot : Slot) (hash : Hash) (r : Option Slot)
      (forks : BankForks) (run : TowerRun parent t₀ t last) (hanc : AncestorsFrom parent forks)
      (hv : t.hasVoted slot = false) (hl : t.isLockedOut slot forks.descendants = some false)
      (hr : t.recordVote slot hash = some (t', r)) : TowerRun parent t₀ t' (some slot)

/-- After every accepted `record_vote`, each slot of the tower's votes and root is an ancestor of
(or equal to) the most recently voted slot, and any two of them are on one fork. -/
theorem tower_votes_stay_on_one_fork {t₀ t : Locktower} {last : Slot}
    (run : TowerRun parent t₀ t (some last)) :
    (∀ s ∈ t.towerSlots, AncestorOrSelf parent s last) ∧
      ∀ a ∈ t.towerSlots, ∀ b ∈ t.towerSlots,
        AncestorOrSelf parent a b ∨ AncestorOrSelf parent b a := by
  cases run with
  | vote slot hash r forks run hanc hv hl hr =>
    have hall := recordVote_ancestorOrSelf hanc hl hr
    exact ⟨hall, fun a ha b hb => (hall a ha).total_of_common (hall b hb)⟩

end

/-- One vote on slot 1 of the chain `0 ← 1`, against bank forks holding both banks. -/
theorem tower_one_vote_on_one_fork :
    ∃ t, TowerRun (fun s : Slot => if s = 0 then none else some (s - 1)) Locktower.new t (some 1) ∧
      ∀ s ∈ t.towerSlots, AncestorOrSelf (fun s : Slot => if s = 0 then none else some (s - 1)) s 1 := by
  let forks : BankForks := ⟨[⟨0, {0}, true⟩, ⟨1, {0, 1}, true⟩], 0, by decide⟩
  have hanc : AncestorsFrom (fun s : Slot => if s = 0 then none else some (s - 1)) forks := by
    intro b hb a ha
    simp only [forks, List.mem_cons, List.not_mem_nil, or_false] at hb
    rcases hb with rfl | rfl
    · simp only [Finset.mem_singleton] at ha
      rw [ha]
    · simp only [Finset.mem_insert, Finset.mem_singleton] at ha
      rcases ha with rfl | rfl
      · exact AncestorOrSelf.of_parent (by decide)
      · rfl
  obtain ⟨t', ht'⟩ : ∃ t', Locktower.new.recordVote 1 Inhabited.default = some (t', none) :=
    ⟨_, rfl⟩
  have run := TowerRun.vote 1 Inhabited.default none forks (@TowerRun.start _ Locktower.new) hanc
    (by decide) (by decide) ht'
  exact ⟨_, run, (tower_votes_stay_on_one_fork run).1⟩

end Locktower

end Morgan
