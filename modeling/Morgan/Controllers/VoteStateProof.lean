import Morgan.Controllers.VoteState

/-!
# The tower of a vote state

`process_vote` keeps the lockouts of a vote state stacked (`Stacked`): their slots increase from
the front (the oldest vote) to the back, their confirmation counts decrease, the lockout at depth
`i` of a tower of `n` has at least `n - i` confirmations, and none has more than
`MAX_LOCKOUT_HISTORY`.  A tower (`Tower`) also holds at most `MAX_LOCKOUT_HISTORY` lockouts, all
newer than the root, and is not empty once it has a root.

`pop_expired_votes` leaves a prefix of the tower and the promotion of the front lockout its tail,
both stacked (`Stacked.of_isPrefix`, `Stacked.tail`).  Pushing the new lockout and doubling gives
the lockout at depth `i < n` of a tower of `n` the count `max c (n + 1 - i)`
(`count_doubleLockouts_push`), so the tower stays stacked (`Stacked.doubleLockouts_push`).  From
these, `Tower.processVote` is the step of every run from `VoteState::new` (`VoteRun`), along which
the root never decreases, the credits count the changes of the root, and the encoding fits in
`VoteState::size_of` bytes.
-/

namespace Morgan

namespace VoteState

open Bincode

/-! ## Stacked lockouts -/

/-- The order of the lockouts of a tower: slots increase and confirmation counts decrease from the
front, the lockout at depth `i` of `n` has at least `n - i` confirmations, and at most
`MAX_LOCKOUT_HISTORY`. -/
structure Stacked (votes : List Lockout) : Prop where
  slots_lt : votes.Pairwise fun a b => a.slot < b.slot
  counts_gt : votes.Pairwise fun a b => b.confirmationCount.toNat < a.confirmationCount.toNat
  length_sub_le_count : ∀ (i : Nat) (h : i < votes.length),
    votes.length - i ≤ votes[i].confirmationCount.toNat
  count_le : ∀ l ∈ votes, l.confirmationCount.toNat ≤ MAX_LOCKOUT_HISTORY

theorem stacked_nil : Stacked [] :=
  ⟨List.Pairwise.nil, List.Pairwise.nil, fun _ h => absurd h (Nat.not_lt_zero _), fun _ h => by
    cases h⟩

/-- A prefix of a stacked tower is stacked: the depths of its lockouts only shrink. -/
theorem Stacked.of_isPrefix {votes votes' : List Lockout} (h : Stacked votes) (hp : votes' <+: votes) :
    Stacked votes' where
  slots_lt := h.slots_lt.sublist hp.sublist
  counts_gt := h.counts_gt.sublist hp.sublist
  length_sub_le_count i hi := by
    have hlen := hp.length_le
    have := h.length_sub_le_count i (by omega)
    rw [hp.getElem hi]
    omega
  count_le l hl := h.count_le l (hp.sublist.subset hl)

/-- The tail of a stacked tower, after its front lockout went to the root, is stacked. -/
theorem Stacked.tail {v : Lockout} {rest : List Lockout} (h : Stacked (v :: rest)) : Stacked rest where
  slots_lt := (List.pairwise_cons.1 h.slots_lt).2
  counts_gt := (List.pairwise_cons.1 h.counts_gt).2
  length_sub_le_count i hi := by
    have := h.length_sub_le_count (i + 1) (by simp; omega)
    simp only [List.length_cons, List.getElem_cons_succ] at this
    omega
  count_le l hl := h.count_le l (List.mem_cons_of_mem _ hl)

/-- `pop_expired_votes` leaves a prefix of the tower. -/
theorem popExpiredVotes_isPrefix (votes : List Lockout) (slot : Slot) :
    popExpiredVotes votes slot <+: votes := by
  rw [popExpiredVotes, ← List.reverse_suffix, List.reverse_reverse]
  exact List.dropWhile_suffix _

theorem length_doubleLockouts (votes : List Lockout) :
    (doubleLockouts votes).length = votes.length :=
  List.length_mapIdx

/-- `double_lockouts` changes confirmation counts only. -/
theorem map_slot_doubleLockouts (votes : List Lockout) :
    (doubleLockouts votes).map (·.slot) = votes.map (·.slot) := by
  apply List.ext_getElem (by simp [length_doubleLockouts])
  intro i _ _
  simp only [List.getElem_map, doubleLockouts, List.getElem_mapIdx]
  split_ifs <;> rfl

/-- A lower bound on the slots of a tower and of a new vote bounds the slots after the push and
the doubling. -/
theorem lt_slot_doubleLockouts_push {votes : List Lockout} {vote : Vote} {r : Slot}
    (hvotes : ∀ l ∈ votes, r < l.slot) (hvote : r < vote.slot) :
    ∀ l ∈ doubleLockouts (votes ++ [Lockout.new vote]), r < l.slot := by
  intro l hl
  have hmem : l.slot ∈ (votes ++ [Lockout.new vote]).map (·.slot) := by
    rw [← map_slot_doubleLockouts]
    exact List.mem_map_of_mem hl
  obtain ⟨x, hx, hslot⟩ := List.mem_map.1 hmem
  rw [← hslot]
  rcases List.mem_append.1 hx with hx | hx
  · exact hvotes x hx
  · rw [List.mem_singleton.1 hx]
    exact hvote

/-- The count after pushing a new lockout and doubling: at depth `i < n` of a tower of `n` the
larger of the old count and `n + 1 - i`, and 1 for the new lockout. -/
theorem count_doubleLockouts_push {votes : List Lockout} (h : Stacked votes) (vote : Vote)
    (i : Nat) (hi : i < (doubleLockouts (votes ++ [Lockout.new vote])).length) :
    (doubleLockouts (votes ++ [Lockout.new vote]))[i].confirmationCount.toNat =
      if hv : i < votes.length then max votes[i].confirmationCount.toNat (votes.length + 1 - i)
      else 1 := by
  simp only [doubleLockouts, List.getElem_mapIdx, List.length_append, List.length_singleton]
  split_ifs with hgt hv hv
  · -- a tight count gains the confirmation: `c = n - i` becomes `n + 1 - i`
    have hge := h.length_sub_le_count i hv
    have hle := h.count_le _ (List.getElem_mem hv)
    rw [List.getElem_append_left hv] at hgt ⊢
    simp only [UInt32.toNat_add, UInt32.toNat_one]
    unfold MAX_LOCKOUT_HISTORY at hle
    omega
  · -- the new lockout is at depth `n`, with one confirmation
    have hn : i = votes.length := by
      simp only [doubleLockouts, List.length_mapIdx, List.length_append, List.length_singleton] at hi
      omega
    subst hn
    rw [List.getElem_append_right (Nat.le_refl _)] at hgt
    simp [Lockout.new] at hgt
  · have hge := h.length_sub_le_count i hv
    rw [List.getElem_append_left hv] at hgt ⊢
    omega
  · have hn : i = votes.length := by
      simp only [doubleLockouts, List.length_mapIdx, List.length_append, List.length_singleton] at hi
      omega
    subst hn
    rw [List.getElem_append_right (Nat.le_refl _)]
    simp [Lockout.new]

/-- Pushing a lockout newer than every lockout of a stacked tower of fewer than
`MAX_LOCKOUT_HISTORY`, then doubling, leaves it stacked. -/
theorem Stacked.doubleLockouts_push {votes : List Lockout} (h : Stacked votes) {vote : Vote}
    (hlen : votes.length < MAX_LOCKOUT_HISTORY) (hslot : ∀ l ∈ votes, l.slot < vote.slot) :
    Stacked (doubleLockouts (votes ++ [Lockout.new vote])) := by
  set M := doubleLockouts (votes ++ [Lockout.new vote]) with hM
  have hMlen : M.length = votes.length + 1 := by
    simp [hM, length_doubleLockouts]
  have hcount := count_doubleLockouts_push h vote
  unfold MAX_LOCKOUT_HISTORY at hlen
  refine ⟨?_, ?_, ?_, ?_⟩
  · -- doubling keeps the slots, which the push leaves increasing
    rw [← List.pairwise_map, hM, map_slot_doubleLockouts, List.pairwise_map, List.pairwise_append]
    refine ⟨h.slots_lt, List.pairwise_singleton _ _, ?_⟩
    intro a ha b hb
    rw [List.mem_singleton.1 hb]
    exact hslot a ha
  · rw [List.pairwise_iff_getElem]
    intro i j hi hj hij
    rw [hcount i hi, hcount j hj]
    have hcounts := List.pairwise_iff_getElem.1 h.counts_gt
    by_cases hjn : j < votes.length
    · rw [dif_pos hjn, dif_pos (by omega)]
      have := hcounts i j (by omega) hjn hij
      omega
    · rw [dif_neg hjn, dif_pos (by omega)]
      omega
  · intro i hi
    rw [hcount i hi, hMlen]
    split_ifs with hv
    · omega
    · omega
  · intro l hl
    obtain ⟨i, hi, rfl⟩ := List.mem_iff_getElem.1 hl
    rw [hcount i hi]
    unfold MAX_LOCKOUT_HISTORY
    split_ifs with hv
    · have := h.count_le _ (List.getElem_mem hv)
      unfold MAX_LOCKOUT_HISTORY at this
      omega
    · omega

/-- A vote not ignored as old is newer than every lockout of a tower whose slots increase. -/
theorem slot_lt_of_not_old {votes : List Lockout} (hslots : votes.Pairwise fun a b => a.slot < b.slot)
    {slot : Slot} (hnew : ¬ votes.getLast?.any (fun old => decide (slot ≤ old.slot)) = true) :
    ∀ l ∈ votes, l.slot < slot := by
  intro l hl
  have hne : votes ≠ [] := List.ne_nil_of_mem hl
  have hlast : (votes.getLast hne).slot < slot := by
    rw [List.getLast?_eq_some_getLast hne] at hnew
    simpa using hnew
  -- the last lockout is the newest
  rw [← List.dropLast_append_getLast hne] at hl hslots
  rw [List.pairwise_append] at hslots
  rcases List.mem_append.1 hl with hl | hl
  · exact UInt64.lt_trans (hslots.2.2 l hl _ (List.mem_singleton_self _)) hlast
  · rw [List.mem_singleton.1 hl]
    exact hlast

/-! ## The tower -/

/-- The tower of a vote state: stacked lockouts, at most `MAX_LOCKOUT_HISTORY` of them, and with
a root, a tower that is not empty and newer than the root. -/
structure Tower (s : VoteState) : Prop where
  stacked : Stacked s.votes
  length_le : s.votes.length ≤ MAX_LOCKOUT_HISTORY
  root_lt : ∀ r, s.rootSlot = some r → s.votes ≠ [] ∧ ∀ l ∈ s.votes, r < l.slot

theorem tower_new (votePubkey nodePubkey : Pubkey) (commission : UInt32) :
    Tower (new votePubkey nodePubkey commission) :=
  ⟨stacked_nil, Nat.zero_le _, fun _ h => by cases h⟩

/-- The root promotion either leaves the root, the credits and the lockouts as they are, on a
tower that is not full, or pops the front of a full one into the root and earns a credit. -/
theorem promoteRoot_cases (s : VoteState) (votes : List Lockout) :
    (promoteRoot s votes = { s with votes } ∧ votes.length ≠ MAX_LOCKOUT_HISTORY) ∨
      ∃ v rest, votes = v :: rest ∧ votes.length = MAX_LOCKOUT_HISTORY ∧
        promoteRoot s votes =
          { s with votes := rest, rootSlot := some v.slot, credits := s.credits + 1 } := by
  cases votes with
  | nil => exact Or.inl ⟨rfl, by decide⟩
  | cons v rest =>
    unfold promoteRoot
    split_ifs with hfull
    · exact Or.inr ⟨v, rest, rfl, hfull, rfl⟩
    · exact Or.inl ⟨rfl, hfull⟩

/-- The vote `process_vote` takes: newer than the whole tower and listed in the slot hashes,
it pops the expired lockouts, promotes the root of a full tower, pushes and doubles. -/
theorem processVote_cases (s : VoteState) (hslots : s.votes.Pairwise fun a b => a.slot < b.slot)
    (vote : Vote) (slotHashes : List (Slot × Hash)) :
    s.processVote vote slotHashes = s ∨
      ((∀ l ∈ s.votes, l.slot < vote.slot) ∧
        s.processVote vote slotHashes =
          let s' := promoteRoot s (popExpiredVotes s.votes vote.slot)
          { s' with votes := doubleLockouts (s'.votes ++ [Lockout.new vote]) }) := by
  unfold processVote
  split_ifs with hold hhash
  · exact Or.inl rfl
  · exact Or.inl rfl
  · exact Or.inr ⟨slot_lt_of_not_old hslots hold, rfl⟩

/-- `process_vote` keeps the tower. -/
theorem Tower.processVote {s : VoteState} (ht : Tower s) (vote : Vote)
    (slotHashes : List (Slot × Hash)) : Tower (s.processVote vote slotHashes) := by
  rcases processVote_cases s ht.stacked.slots_lt vote slotHashes with h | ⟨hnew, h⟩
  · rw [h]
    exact ht
  rw [h]
  have hpre := popExpiredVotes_isPrefix s.votes vote.slot
  generalize popExpiredVotes s.votes vote.slot = L at hpre
  have hL : Stacked L := ht.stacked.of_isPrefix hpre
  have hLnew : ∀ l ∈ L, l.slot < vote.slot := fun l hl => hnew l (hpre.sublist.subset hl)
  have hLlen : L.length ≤ MAX_LOCKOUT_HISTORY := hpre.length_le.trans ht.length_le
  have hne : ∀ votes : List Lockout, doubleLockouts (votes ++ [Lockout.new vote]) ≠ [] := by
    intro votes
    rw [← List.length_pos_iff, length_doubleLockouts]
    simp
  rcases promoteRoot_cases s L with ⟨hp, hlen⟩ | ⟨v, rest, rfl, hlen, hp⟩
  · -- no promotion: the root stays, older than the tower and so than the vote
    rw [hp]
    refine ⟨hL.doubleLockouts_push (by omega) hLnew, ?_, ?_⟩
    · simp only [length_doubleLockouts, List.length_append, List.length_singleton]
      omega
    · intro r hr
      obtain ⟨hsne, hlt⟩ := ht.root_lt r hr
      obtain ⟨l, hl⟩ := List.exists_mem_of_ne_nil _ hsne
      refine ⟨hne L, lt_slot_doubleLockouts_push (fun x hx => hlt x (hpre.sublist.subset hx)) ?_⟩
      exact UInt64.lt_trans (hlt l hl) (hnew l hl)
  · -- promotion: the front lockout becomes the root, older than the rest of the tower
    rw [hp]
    have hrest := List.pairwise_cons.1 hL.slots_lt
    refine ⟨hL.tail.doubleLockouts_push (by simp at hlen; omega) (fun l hl => hLnew l
      (List.mem_cons_of_mem _ hl)), ?_, ?_⟩
    · simp only [length_doubleLockouts, List.length_append, List.length_singleton]
      simp only [List.length_cons] at hlen
      omega
    · intro r hr
      cases hr
      exact ⟨hne rest, lt_slot_doubleLockouts_push hrest.1 (hLnew v (List.mem_cons_self ..))⟩

/-- What `process_vote` does to the root and the credits: nothing, or the root moves to a slot of
the tower and a credit is earned. -/
theorem processVote_root_cases {s : VoteState} (ht : Tower s) (vote : Vote)
    (slotHashes : List (Slot × Hash)) :
    ((s.processVote vote slotHashes).rootSlot = s.rootSlot ∧
        (s.processVote vote slotHashes).credits = s.credits) ∨
      ∃ v ∈ s.votes, (s.processVote vote slotHashes).rootSlot = some v.slot ∧
        (s.processVote vote slotHashes).credits = s.credits + 1 := by
  rcases processVote_cases s ht.stacked.slots_lt vote slotHashes with h | ⟨_, h⟩
  · rw [h]
    exact Or.inl ⟨rfl, rfl⟩
  rw [h]
  have hpre := popExpiredVotes_isPrefix s.votes vote.slot
  generalize popExpiredVotes s.votes vote.slot = L at hpre
  rcases promoteRoot_cases s L with ⟨hp, _⟩ | ⟨v, rest, rfl, _, hp⟩
  · rw [hp]
    exact Or.inl ⟨rfl, rfl⟩
  · rw [hp]
    exact Or.inr ⟨v, hpre.sublist.subset (List.mem_cons_self ..), rfl, rfl⟩

/-- The root of a tower never decreases under `process_vote`, and moves up when it changes. -/
theorem rootSlot_processVote_le {s : VoteState} (ht : Tower s) (vote : Vote)
    (slotHashes : List (Slot × Hash)) {r : Slot} (hr : s.rootSlot = some r) :
    ∃ r', (s.processVote vote slotHashes).rootSlot = some r' ∧ r ≤ r' := by
  rcases processVote_root_cases ht vote slotHashes with ⟨hroot, _⟩ | ⟨v, hv, hroot, _⟩
  · exact ⟨r, hroot.trans hr, UInt64.le_refl r⟩
  · exact ⟨v.slot, hroot, UInt64.le_of_lt ((ht.root_lt r hr).2 v hv)⟩

/-- `process_vote` earns a credit exactly when it moves the root. -/
theorem credits_processVote {s : VoteState} (ht : Tower s) (vote : Vote)
    (slotHashes : List (Slot × Hash)) :
    (s.processVote vote slotHashes).credits =
      s.credits + if (s.processVote vote slotHashes).rootSlot = s.rootSlot then 0 else 1 := by
  rcases processVote_root_cases ht vote slotHashes with ⟨hroot, hcredits⟩ | ⟨v, hv, hroot, hcredits⟩
  · rw [if_pos hroot, hcredits, UInt64.add_zero]
  · -- the new root is a slot of the tower, so newer than any old root
    have hmoved : (s.processVote vote slotHashes).rootSlot ≠ s.rootSlot := by
      rw [hroot]
      intro hsame
      have := (ht.root_lt v.slot hsame.symm).2 v hv
      exact UInt64.lt_irrefl _ this
    rw [if_neg hmoved, hcredits]

/-! ## Runs from `VoteState::new` -/

/-- The vote states a sequence of `process_vote` calls, with any votes and any slot hashes, leads
to from `s₀`, with the number of calls that moved the root. -/
inductive VoteRun (s₀ : VoteState) : VoteState → Nat → Prop
  | refl : VoteRun s₀ s₀ 0
  | step {s : VoteState} {n : Nat} (vote : Vote) (slotHashes : List (Slot × Hash)) :
      VoteRun s₀ s n →
        VoteRun s₀ (s.processVote vote slotHashes)
          (n + if (s.processVote vote slotHashes).rootSlot = s.rootSlot then 0 else 1)

/-- Every state of a run from a tower is a tower, and the credits it earned count the moves of
the root, in the wrapping `u64` of `credits`. -/
theorem VoteRun.tower_credits {s₀ s : VoteState} {n : Nat} (run : VoteRun s₀ s n)
    (ht : Tower s₀) : Tower s ∧ s.credits = s₀.credits + UInt64.ofNat n := by
  induction run with
  | refl => exact ⟨ht, by simp⟩
  | @step s n vote slotHashes _ ih =>
    obtain ⟨hts, hcredits⟩ := ih
    refine ⟨hts.processVote vote slotHashes, ?_⟩
    rw [credits_processVote hts, hcredits, UInt64.add_assoc, UInt64.ofNat_add]
    split_ifs <;> rfl

/-! ## The encoded size -/

/-- The encoding of a vote state: the length prefix, 12 bytes a lockout, the two keys, the
commission, the root and the credits. -/
theorem length_serialize (s : VoteState) :
    s.serialize.length = 12 * s.votes.length + (encodeOption encodeU64 s.rootSlot).length + 84 := by
  simp only [serialize, encodeU64, encodeU32, List.length_append, length_toLittleEndian,
    List.length_flatMap, Vector.length_toList, List.map_const', List.sum_replicate, smul_eq_mul]
  omega

theorem sizeOf_eq : sizeOf = 465 := by
  rw [sizeOf, length_serialize]
  rfl

/-- A tower's encoding fits in `VoteState::size_of` bytes. -/
theorem Tower.length_serialize_le {s : VoteState} (ht : Tower s) : s.serialize.length ≤ sizeOf := by
  have hroot : (encodeOption encodeU64 s.rootSlot).length ≤ 9 := by
    cases s.rootSlot <;> simp [encodeOption, encodeU64]
  rw [length_serialize, sizeOf_eq]
  have := ht.length_le
  unfold MAX_LOCKOUT_HISTORY at this
  omega

end VoteState

open VoteState in
/-- Every vote state a sequence of `process_vote` calls leads to from `VoteState::new` holds a
tower: at most `MAX_LOCKOUT_HISTORY` lockouts, slots increasing and confirmation counts decreasing
from the front, the lockout at depth `i` confirmed between `len - i` and `MAX_LOCKOUT_HISTORY`
times, a root older than every lockout and that no later vote lowers, and credits that count the
promotions to the root; so its encoding fits in a buffer of `VoteState::size_of` bytes. -/
theorem vote_tower_invariant {votePubkey nodePubkey : Pubkey} {commission : UInt32}
    {s : VoteState} {promotions : Nat}
    (run : VoteRun (VoteState.new votePubkey nodePubkey commission) s promotions) :
    s.votes.length ≤ MAX_LOCKOUT_HISTORY ∧
      s.votes.Pairwise (fun a b => a.slot < b.slot) ∧
      s.votes.Pairwise (fun a b => b.confirmationCount < a.confirmationCount) ∧
      (∀ (i : Nat) (h : i < s.votes.length),
        s.votes.length - i ≤ s.votes[i].confirmationCount.toNat ∧
          s.votes[i].confirmationCount.toNat ≤ MAX_LOCKOUT_HISTORY) ∧
      (∀ r, s.rootSlot = some r → ∀ l ∈ s.votes, r < l.slot) ∧
      (∀ vote slotHashes r, s.rootSlot = some r →
        ∃ r', (s.processVote vote slotHashes).rootSlot = some r' ∧ r ≤ r') ∧
      s.credits = UInt64.ofNat promotions ∧
      ∀ buffer : List UInt8, buffer.length = VoteState.sizeOf →
        Bincode.serializeInto s.serialize buffer ≠ none := by
  obtain ⟨ht, hcredits⟩ := run.tower_credits (tower_new votePubkey nodePubkey commission)
  have hfits := ht.length_serialize_le
  refine ⟨ht.length_le, ht.stacked.slots_lt, ?_, ?_, ?_, ?_, ?_, ?_⟩
  · exact ht.stacked.counts_gt.imp fun h => UInt32.lt_iff_toNat_lt.2 h
  · exact fun i h => ⟨ht.stacked.length_sub_le_count i h, ht.stacked.count_le _ (List.getElem_mem h)⟩
  · exact fun r hr => (ht.root_lt r hr).2
  · exact fun vote slotHashes r hr => rootSlot_processVote_le ht vote slotHashes hr
  · rw [hcredits]
    exact UInt64.zero_add _
  · intro buffer hbuffer
    simp only [Bincode.serializeInto, hbuffer, if_pos hfits, ne_eq, reduceCtorEq, not_false_eq_true]

/-- The first vote of a fresh vote account, for slot 5 with its slot hash, leaves a tower of one
lockout whose encoding fits. -/
theorem vote_tower_invariant_first_vote :
    ∃ s n, VoteState.VoteRun (VoteState.new default default 0) s n ∧ s.votes = [⟨5, 1⟩] ∧
      s.credits = UInt64.ofNat n ∧
      ∀ buffer : List UInt8, buffer.length = VoteState.sizeOf →
        Bincode.serializeInto s.serialize buffer ≠ none := by
  have run := VoteState.VoteRun.step ⟨5, default⟩ [(5, default)]
    (@VoteState.VoteRun.refl (VoteState.new default default 0))
  obtain ⟨-, -, -, -, -, -, hcredits, hfits⟩ := vote_tower_invariant run
  exact ⟨_, _, run, by decide, hcredits, hfits⟩

end Morgan
