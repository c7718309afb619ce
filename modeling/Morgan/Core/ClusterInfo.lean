import Morgan.Runtime.Bloom
import Morgan.Core.Crds

/-!
# Answering gossip pull requests

`pullFromGossip.rs`, `gossip.rs` and `clusterMessage.rs`: a node answers a pull request with the
values of its table whose hashes the requester's Bloom filter does not contain, up to a byte
budget, and then inserts the requester's contact info.  The filter is looked up once for each
value of the table, and the table holds the node's own contact info from `ClusterInfo::new` on;
so a filter with a key and an empty bit vector makes the node panic.

Signature checks (`verify`), value hashes and serialized sizes enter as functions.  Of the
messages, pull requests and pull responses are modelled.
-/

namespace Morgan

namespace Gossip

/-- `BLOB_DATA_SIZE`: a blob of `64 * 1024 - 128` bytes less two headers of 112. -/
def BLOB_DATA_SIZE : Nat := 64 * 1024 - 128 - 2 * 112

/-- `CrdsGossipPull`, with the fields the modelled functions read. -/
structure CrdsGossipPull where
  purgedValues : List (Hash × UInt64)
  maxBytes : Nat

/-- `CrdsGossip`, without its push state. -/
structure CrdsGossip where
  crds : Crds
  id : Pubkey
  pull : CrdsGossipPull

/-- `ClusterInfo`, with the gossip state; the keypair only signs, outside the model. -/
structure ClusterInfo where
  gossip : CrdsGossip

/-- `Protocol`: the pull messages. -/
inductive Protocol where
  | pullRequest (filter : Bloom Hash) (caller : CrdsValue)
  | pullResponse («from» : Pubkey) (data : List CrdsValue)

variable (valueHash : CrdsValue → Hash) (serializedSize : CrdsValue → Nat)
  (verify : CrdsValue → Bool)

namespace CrdsGossipPull

/-- `CrdsGossipPull::default()`. -/
def default : CrdsGossipPull := ⟨[], BLOB_DATA_SIZE⟩

/-- `purged_values.push_back((value_hash, local_timestamp))`. -/
def pushPurged (pull : CrdsGossipPull) (val : VersionedCrdsValue) : CrdsGossipPull :=
  { pull with purgedValues := pull.purgedValues ++ [(val.valueHash, val.localTimestamp)] }

/-- The loop of `filter_crds_values` over the versions of the table; `none` is a panic of the
filter. -/
def filterValues (filter : Bloom Hash) : Int → List VersionedCrdsValue → Option (List CrdsValue)
  | _, [] => some []
  | maxBytes, v :: rest => do
    if ← filter.contains v.valueHash then filterValues filter maxBytes rest
    else
      let maxBytes := maxBytes - serializedSize v.value
      if maxBytes < 0 then some []
      else (v.value :: ·) <$> filterValues filter maxBytes rest

/-- `filter_crds_values`. -/
def filterCrdsValues (pull : CrdsGossipPull) (crds : Crds) (filter : Bloom Hash) :
    Option (List CrdsValue) :=
  filterValues serializedSize filter pull.maxBytes (crds.table.map (·.2))

/-- `process_pull_request`. -/
def processPullRequest (pull : CrdsGossipPull) (crds : Crds) (caller : CrdsValue)
    (filter : Bloom Hash) (now : UInt64) : Option (CrdsGossipPull × Crds × List CrdsValue) := do
  let rv ← pull.filterCrdsValues serializedSize crds filter
  let key := caller.label.pubkey
  let (old, crds) := crds.insert valueHash caller now
  let pull := match old with
    | .ok (some val) => pull.pushPurged val
    | _ => pull
  pure (pull, crds.updateRecordTimestamp key now, rv)

/-- `process_pull_response`: the number of values that failed to insert. -/
def processPullResponse (pull : CrdsGossipPull) (crds : Crds) («from» : Pubkey)
    (response : List CrdsValue) (now : UInt64) : CrdsGossipPull × Crds × Nat :=
  let (pull, crds, failed) := response.foldl (fun (pull, crds, failed) r =>
    let owner := r.label.pubkey
    match crds.insert valueHash r now with
    | (.error _, crds) => (pull, crds, failed + 1)
    | (.ok old, crds) =>
      let crds := crds.updateRecordTimestamp owner now
      match old with
      | some val => (pull.pushPurged val, crds, failed)
      | none => (pull, crds, failed)) (pull, crds, 0)
  (pull, crds.updateRecordTimestamp «from» now, failed)

end CrdsGossipPull

namespace ClusterInfo

/-- `ClusterInfo::new`: the gossip id is the contact info's, and `insert_self` inserts it.  The
contact info comes signed; `push_self`, which pushes it again with a new wallclock, is left out. -/
def new (contactInfo : ContactInfo) (now : UInt64) : ClusterInfo :=
  ⟨⟨(Crds.empty.insert valueHash (.contactInfo contactInfo) now).2, contactInfo.id,
    CrdsGossipPull.default⟩⟩

/-- `handle_pull_request`: the response goes to the requester's gossip address, or to the address
the request came from when that one is unspecified. -/
def handlePullRequest (me : ClusterInfo) (filter : Bloom Hash) (caller : CrdsValue)
    (fromAddr : SocketAddr) (now : UInt64) : Option (ClusterInfo × List (SocketAddr × Protocol)) :=
  let selfId := me.gossip.id
  match caller.contactInfo? with
  | none => some (me, [])
  | some info =>
    if info.id = selfId then some (me, [])
    else do
      let (pull, crds, data) ←
        me.gossip.pull.processPullRequest valueHash serializedSize me.gossip.crds caller filter now
      let addr := if info.gossip.isUnspecified then fromAddr else info.gossip
      pure (⟨{ me.gossip with crds, pull }⟩, [(addr, .pullResponse selfId data)])

/-- `handle_protocol` on the pull messages; `none` is a panic. -/
def handleProtocol (me : ClusterInfo) (fromAddr : SocketAddr) (request : Protocol) (now : UInt64) :
    Option (ClusterInfo × List (SocketAddr × Protocol)) :=
  match request with
  | .pullRequest filter caller =>
    if !verify caller then some (me, [])
    else handlePullRequest valueHash serializedSize me filter caller fromAddr now
  | .pullResponse «from» data =>
    let (pull, crds, _) := me.gossip.pull.processPullResponse valueHash me.gossip.crds «from»
      (data.filter verify) now
    some (⟨{ me.gossip with crds, pull }⟩, [])

end ClusterInfo

/-! ## What a pull request is answered with -/

namespace CrdsGossipPull

variable {serializedSize} {filter : Bloom Hash}

theorem filterValues_cons (maxBytes : Int) (v : VersionedCrdsValue)
    (rest : List VersionedCrdsValue) :
    filterValues serializedSize filter maxBytes (v :: rest) =
      (filter.contains v.valueHash).bind fun found =>
        if found then filterValues serializedSize filter maxBytes rest
        else if maxBytes - serializedSize v.value < 0 then some []
        else (v.value :: ·) <$> filterValues serializedSize filter
          (maxBytes - serializedSize v.value) rest :=
  rfl

/-- With a nonempty bit vector the answer is computed. -/
theorem filterValues_isSome (hlen : filter.len ≠ 0) :
    ∀ (maxBytes : Int) (vs : List VersionedCrdsValue),
      (filterValues serializedSize filter maxBytes vs).isSome
  | _, [] => rfl
  | maxBytes, v :: rest => by
    obtain ⟨found, hfound⟩ := Option.ne_none_iff_exists'.1
      (mt Bloom.contains_eq_none_iff.1 fun h => hlen h.2 : filter.contains v.valueHash ≠ none)
    simp only [filterValues_cons, hfound, Option.bind_some]
    split_ifs
    · exact filterValues_isSome hlen maxBytes rest
    · rfl
    · simpa using filterValues_isSome hlen _ rest

/-- Every value of the answer is a value of the table that the filter does not contain. -/
theorem mem_filterValues : ∀ {maxBytes : Int} {vs : List VersionedCrdsValue}
    {rv : List CrdsValue}, filterValues serializedSize filter maxBytes vs = some rv →
      ∀ v ∈ rv, ∃ e ∈ vs, e.value = v ∧ filter.contains e.valueHash = some false
  | _, [], _, h, v, hv => by cases h; simp at hv
  | maxBytes, e :: rest, rv, h, v, hv => by
    simp only [filterValues_cons, Option.bind_eq_some_iff] at h
    obtain ⟨found, hfound, h⟩ := h
    split_ifs at h with hf hneg
    · obtain ⟨e', he', rfl, hc⟩ := mem_filterValues h v hv
      exact ⟨e', List.mem_cons_of_mem _ he', rfl, hc⟩
    · cases h
      simp at hv
    · obtain ⟨rv', hrv', rfl⟩ := Option.map_eq_some_iff.1 h
      rcases List.mem_cons.1 hv with rfl | hv
      · have hfalse : found = false := by simpa using hf
        exact ⟨e, List.mem_cons_self, rfl, hfalse ▸ hfound⟩
      · obtain ⟨e', he', rfl, hc⟩ := mem_filterValues hrv' v hv
        exact ⟨e', List.mem_cons_of_mem _ he', rfl, hc⟩

/-- The answer's values take at most the byte budget. -/
theorem filterValues_size_le : ∀ {maxBytes : Int} {vs : List VersionedCrdsValue}
    {rv : List CrdsValue}, 0 ≤ maxBytes → filterValues serializedSize filter maxBytes vs = some rv →
      ((rv.map serializedSize).sum : Int) ≤ maxBytes
  | _, [], _, h0, h => by cases h; simpa using h0
  | maxBytes, e :: rest, rv, h0, h => by
    simp only [filterValues_cons, Option.bind_eq_some_iff] at h
    obtain ⟨found, -, h⟩ := h
    split_ifs at h with hf hneg
    · exact filterValues_size_le h0 h
    · cases h
      simpa using h0
    · -- the value is taken only while the budget left stays nonnegative
      obtain ⟨rv', hrv', rfl⟩ := Option.map_eq_some_iff.1 h
      have hle := filterValues_size_le (not_lt.1 hneg) hrv'
      simp only [List.map_cons, List.sum_cons]
      omega

theorem filterCrdsValues_size_le {pull : CrdsGossipPull} {crds : Crds} {rv : List CrdsValue}
    (h : pull.filterCrdsValues serializedSize crds filter = some rv) :
    (rv.map serializedSize).sum ≤ pull.maxBytes := by
  have := filterValues_size_le (Int.natCast_nonneg pull.maxBytes) h
  omega

/-- A filter with a key and an empty bit vector panics on the first value of the table. -/
theorem filterValues_cons_eq_none (hkeys : filter.keys ≠ []) (hlen : filter.len = 0)
    (maxBytes : Int) (v : VersionedCrdsValue) (rest : List VersionedCrdsValue) :
    filterValues serializedSize filter maxBytes (v :: rest) = none := by
  have hnone : filter.contains v.valueHash = none := Bloom.contains_eq_none_iff.2 ⟨hkeys, hlen⟩
  simp [filterValues_cons, hnone]

theorem processPullRequest_eq_none {pull : CrdsGossipPull} {crds : Crds} (hkeys : filter.keys ≠ [])
    (hlen : filter.len = 0) (htable : crds.table ≠ []) (caller : CrdsValue) (now : UInt64) :
    pull.processPullRequest valueHash serializedSize crds caller filter now = none := by
  obtain ⟨e, rest, htable⟩ := List.exists_cons_of_ne_nil htable
  have hfilter : pull.filterCrdsValues serializedSize crds filter = none := by
    rw [filterCrdsValues, htable, List.map_cons]
    exact filterValues_cons_eq_none hkeys hlen _ _ _
  unfold processPullRequest
  rw [hfilter]
  rfl

end CrdsGossipPull

namespace ClusterInfo

theorem new_table_ne_nil (contactInfo : ContactInfo) (now : UInt64) :
    (new valueHash contactInfo now).gossip.crds.table ≠ [] := by
  simp [new, Crds.insert, Crds.insertVersioned, Crds.empty, AssocMap.insert, AssocMap.get?]

theorem handlePullRequest_eq_none {me : ClusterInfo} {filter : Bloom Hash} {info : ContactInfo}
    (hkeys : filter.keys ≠ []) (hlen : filter.len = 0) (htable : me.gossip.crds.table ≠ [])
    (hid : info.id ≠ me.gossip.id) (fromAddr : SocketAddr) (now : UInt64) :
    handlePullRequest valueHash serializedSize me filter (.contactInfo info) fromAddr now = none := by
  have hpull : me.gossip.pull.processPullRequest valueHash serializedSize me.gossip.crds
      (.contactInfo info) filter now = none :=
    CrdsGossipPull.processPullRequest_eq_none valueHash hkeys hlen htable _ now
  unfold handlePullRequest CrdsValue.contactInfo?
  dsimp only
  rw [if_neg hid, hpull]
  rfl

end ClusterInfo

theorem pull_request_with_empty_filter_panics (contactInfo caller : ContactInfo)
    (keys : List UInt64) (fromAddr : SocketAddr) (now now' : UInt64) (hkeys : keys ≠ [])
    (hcaller : caller.id ≠ contactInfo.id) (hverify : verify (.contactInfo caller) = true) :
    ClusterInfo.handleProtocol valueHash serializedSize verify
        (ClusterInfo.new valueHash contactInfo now) fromAddr
        (.pullRequest (Bloom.new 0 keys) (.contactInfo caller)) now' = none := by
  have hlen : (Bloom.new 0 keys : Bloom Hash).len = 0 := rfl
  unfold ClusterInfo.handleProtocol
  simp only [hverify, Bool.not_true, Bool.false_eq_true, ite_false]
  exact ClusterInfo.handlePullRequest_eq_none valueHash serializedSize hkeys hlen
    (ClusterInfo.new_table_ne_nil valueHash contactInfo now) hcaller fromAddr now'

/-- A node and a peer with their gossip addresses. -/
def gossipNode : ContactInfo := ⟨⟨Vector.replicate 32 1⟩, default, ⟨[10, 0, 0, 1], 8001⟩, 0⟩

def gossipPeer : ContactInfo := ⟨⟨Vector.replicate 32 2⟩, default, ⟨[10, 0, 0, 2], 8001⟩, 0⟩

theorem pull_request_with_empty_filter_panics_at_peer :
    [0] ≠ ([] : List UInt64) ∧ gossipPeer.id ≠ gossipNode.id ∧
      ClusterInfo.handleProtocol (fun _ => default) (fun _ => 0) (fun _ => true)
          (ClusterInfo.new (fun _ => default) gossipNode 0) gossipPeer.gossip
          (.pullRequest (Bloom.new 0 [0]) (.contactInfo gossipPeer)) 0 = none :=
  ⟨by decide, by decide,
    pull_request_with_empty_filter_panics _ _ _ gossipNode gossipPeer [0] gossipPeer.gossip 0 0
      (by decide) (by decide) rfl⟩

end Gossip

end Morgan
