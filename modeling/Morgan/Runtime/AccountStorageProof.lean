import Mathlib
import Morgan.Runtime.AccountStorage
import Morgan.Runtime.AccountsIndexProof

/-!
# What the storage counts keep

Each storage entry counts the index entries that name it.  `store` adds to the counts as it
appends (`store_accounts`), the index hands back the entries it drops (`update_index`), and
`remove_dead_accounts` takes those off; `set_status` and `remove_account` reset an entry's append
vector when the count says it holds nothing.  Over any sequence of `store`, `add_root` and
`purge_fork` calls from a new database:

* every storage entry's count is the number of index entries naming it, so `remove_account` never
  goes below zero, nor does the assertion on the entry's fork fail (`accounts_db_storage_counts`);
* every index entry whose storage entry is still there reads back, at its offset, the version
  that the index-level model `AccountsDb` holds for its key and fork: no reset has reached an
  entry still in use, and the storage-level database refines the index-level one.

The accounts stored have data shorter than 2^64 bytes, as the length of a Rust vector is a `usize`;
past that, `data_len` would wrap and the record would not read back.

Within a call the counts run ahead of the index by what is pending: the infos appended and not
yet in the index, and the entries the index has dropped and the counts not yet lost.  The
invariant `Inv` carries that surplus as a function of the storage id, and each phase of `store`
moves it from one kind of pending entry to the other.
-/

namespace Morgan

namespace AccountsIndex

variable {T : Type}

theorem versions_insert_self (index : AccountsIndex T) (fork : Fork) (key : Pubkey) (info : T) :
    (index.insert fork key info).1.versions key =
      ((index.versions key).filter (·.1 != fork) ++ [(fork, info)]).filter
        fun e => !index.isPurged e.1 := by
  simp [insert, versions]

theorem versions_insert_of_ne (index : AccountsIndex T) {key key' : Pubkey} (h : key' ≠ key)
    (fork : Fork) (info : T) : (index.insert fork key info).1.versions key' = index.versions key' := by
  simp [insert, versions, AssocMap.get?_set_of_ne _ h]

open List in
/-- What `insert` keeps and what it hands back are, together, the old versions and the new one. -/
theorem insert_perm (index : AccountsIndex T) (fork : Fork) (key : Pubkey) (info : T) :
    ((index.insert fork key info).1.versions key ++ (index.insert fork key info).2).Perm
      (index.versions key ++ [(fork, info)]) := by
  rw [versions_insert_self]
  set l := index.versions key
  set kept := l.filter (·.1 != fork) ++ [(fork, info)]
  have hsplit : ∀ (p : Fork × T → Bool) (l : List (Fork × T)),
      (l.filter (fun e => !p e) ++ l.filter p).Perm l := fun p l =>
    List.perm_append_comm.trans (List.filter_append_perm p l)
  calc (kept.filter (fun e => !index.isPurged e.1) ++
          (l.filter (·.1 == fork) ++ kept.filter fun e => index.isPurged e.1)).Perm
        ((kept.filter (fun e => !index.isPurged e.1) ++ kept.filter fun e => index.isPurged e.1) ++
          l.filter (·.1 == fork)) := by
        rw [List.append_assoc]
        exact List.Perm.append_left _ List.perm_append_comm
    _ ~ kept ++ l.filter (·.1 == fork) := (hsplit (fun e => index.isPurged e.1) kept).append_right _
    _ ~ (l.filter (·.1 != fork) ++ l.filter (·.1 == fork)) ++ [(fork, info)] := by
        simp only [kept, List.append_assoc]
        exact List.Perm.append_left _ List.perm_append_comm
    _ ~ l ++ [(fork, info)] := (hsplit (·.1 == fork) l).append_right _

theorem versions_empty (key : Pubkey) : (empty : AccountsIndex T).versions key = [] := rfl

/-- The index entries that name storage entry `id`. -/
def refs (index : AccountsIndex AccountInfo) (id : Nat) : Nat :=
  (index.accountMaps.map fun e => e.2.countP fun v => v.2.id = id).sum

/-- A key's entries naming `id` are some of those of the whole index. -/
theorem countP_versions_le_refs (index : AccountsIndex AccountInfo) (key : Pubkey) (id : Nat) :
    (index.versions key).countP (fun v => v.2.id = id) ≤ index.refs id := by
  unfold versions
  cases hget : index.accountMaps.get? key with
  | none => exact Nat.zero_le _
  | some vs =>
    exact List.le_sum_of_mem (List.mem_map_of_mem (f := fun e => e.2.countP fun v => v.2.id = id)
      (AssocMap.mem_of_get? hget))

/-- No entry names an id that the index does not count. -/
theorem id_ne_of_refs_eq_zero {index : AccountsIndex AccountInfo} {id : Nat} (h : index.refs id = 0)
    {key : Pubkey} {v : Fork × AccountInfo} (hv : v ∈ index.versions key) : v.2.id ≠ id := by
  have hle := countP_versions_le_refs index key id
  rw [h, Nat.le_zero, List.countP_eq_zero] at hle
  simpa using hle v hv

/-- An id that no entry names is not counted. -/
theorem refs_eq_zero {index : AccountsIndex AccountInfo} {id : Nat}
    (h : ∀ key, ∀ v ∈ index.versions key, v.2.id ≠ id) : index.refs id = 0 := by
  unfold refs
  refine List.sum_eq_zero fun n hn => ?_
  obtain ⟨e, he, rfl⟩ := List.mem_map.1 hn
  have hvs : index.versions e.1 = e.2 := by
    unfold versions
    rw [AssocMap.get?_of_mem index.keys_nodup he]
    rfl
  rw [List.countP_eq_zero]
  intro v hv
  simpa using h e.1 v (hvs ▸ hv)

/-- An insertion names `id` once more for the info it adds, and once less for each entry it hands
back. -/
theorem refs_insert (index : AccountsIndex AccountInfo) (fork : Fork) (key : Pubkey)
    (info : AccountInfo) (id : Nat) :
    (index.insert fork key info).1.refs id +
        (index.insert fork key info).2.countP (fun v => v.2.id = id) =
      index.refs id + if info.id = id then 1 else 0 := by
  have hset := AssocMap.sum_map_set (fun vs : List (Fork × AccountInfo) =>
    vs.countP fun v => v.2.id = id) index.keys_nodup key
    ((index.insert fork key info).1.versions key)
  have hperm := (insert_perm index fork key info).countP_eq fun v => v.2.id = id
  have hold : ((index.accountMaps.get? key).map fun vs => vs.countP fun v => v.2.id = id).getD 0 =
      (index.versions key).countP fun v => v.2.id = id := by
    unfold versions
    cases index.accountMaps.get? key <;> rfl
  have hrefs : (index.insert fork key info).1.refs id =
      ((index.accountMaps.set key ((index.insert fork key info).1.versions key)).map
        fun e => e.2.countP fun v => v.2.id = id).sum := by
    rw [versions_insert_self]
    rfl
  rw [List.countP_append, List.countP_append, List.countP_singleton] at hperm
  rw [hrefs, refs]
  simp only [decide_eq_true_eq] at hperm
  omega

end AccountsIndex

namespace AccountStorageEntry

theorem setStatus_cases (e : AccountStorageEntry) (status : AccountStorageStatus) :
    (e.setStatus status).id = e.id ∧ (e.setStatus status).forkId = e.forkId ∧
      (e.setStatus status).count = e.count ∧
      ((e.setStatus status).accounts = e.accounts ∨
        ((e.setStatus status).accounts = e.accounts.reset ∧ e.count = 0)) := by
  unfold setStatus
  split
  · rename_i h
    exact ⟨rfl, rfl, rfl, .inr ⟨rfl, h.2⟩⟩
  · exact ⟨rfl, rfl, rfl, .inl rfl⟩

/-- What a `remove_account` that does not panic did: one less in the count, and the append vector
reset only when that was its last account. -/
theorem removeAccount_eq_some {e e' : AccountStorageEntry} (h : e.removeAccount = some e') :
    0 < e.count ∧ e'.id = e.id ∧ e'.forkId = e.forkId ∧ e'.count = e.count - 1 ∧
      (e'.accounts = e.accounts ∨ (e'.accounts = e.accounts.reset ∧ e.count = 1)) := by
  unfold removeAccount at h
  by_cases hzero : e.count = 0
  · rw [if_pos hzero] at h
    cases h
  · rw [if_neg hzero] at h
    obtain rfl := Option.some.inj h
    refine ⟨Nat.pos_of_ne_zero hzero, ?_⟩
    split
    · rename_i hlast
      exact ⟨rfl, rfl, rfl, .inr ⟨rfl, hlast.1⟩⟩
    · exact ⟨rfl, rfl, rfl, .inl rfl⟩

theorem foldl_addAccount {β : Type} (xs : List β) (e : AccountStorageEntry) :
    xs.foldl (fun e _ => e.addAccount) e = { e with count := e.count + xs.length } := by
  induction xs generalizing e with
  | nil => rfl
  | cons _ xs ih =>
    rw [List.foldl_cons, ih]
    simp only [addAccount, List.length_cons]
    congr 1
    omega

/-- The status `store_accounts` leaves an entry it appended to: full when nothing fit, which resets
it only when it counts nothing. -/
theorem appendStatus_cases (e : AccountStorageEntry) (av : AppendVec) (rvs : List Nat) :
    let e' := if rvs.isEmpty then { e with accounts := av }.setStatus .storageFull
      else { e with accounts := av }
    e'.id = e.id ∧ e'.forkId = e.forkId ∧ e'.count = e.count ∧
      (e'.accounts = av ∨ (e'.accounts = av.reset ∧ e.count = 0 ∧ rvs = [])) := by
  intro e'
  by_cases hrvs : rvs.isEmpty
  · have he' : e' = { e with accounts := av }.setStatus .storageFull := if_pos hrvs
    obtain ⟨h₁, h₂, h₃, h₄⟩ := setStatus_cases { e with accounts := av } .storageFull
    rw [he']
    exact ⟨h₁, h₂, h₃, h₄.imp (fun h => h) fun h => ⟨h.1, h.2, List.isEmpty_iff.1 hrvs⟩⟩
  · have he' : e' = { e with accounts := av } := if_neg hrvs
    rw [he']
    exact ⟨rfl, rfl, rfl, .inl rfl⟩

theorem removeAccount_ne_none {e : AccountStorageEntry} (h : 0 < e.count) :
    e.removeAccount ≠ none := by
  unfold removeAccount
  rw [if_neg (Nat.pos_iff_ne_zero.1 h)]
  exact Option.some_ne_none _

end AccountStorageEntry

namespace AccountsDB

/-- A version of the index against one of the index-level model: the same fork, and, while its
storage entry stands, a record there that reads as the model's account. -/
def Agrees (db : AccountsDB) (recs : Nat → List (Nat × StoredAccount)) (v : Fork × AccountInfo)
    (w : Fork × Account) : Prop :=
  v.1 = w.1 ∧ ∀ e, db.storage.get? v.2.id = some e →
    ∃ r, (v.2.offset, r) ∈ recs v.2.id ∧ r.cloneAccount = w.2

/-- The database against the index-level model `a`, with the records `recs` of each storage entry,
and `extra id` references to entry `id` pending beyond those of the index. -/
structure Inv (db : AccountsDB) (a : AccountsDb) (recs : Nat → List (Nat × StoredAccount))
    (extra : Nat → Nat) : Prop where
  storage_nodup : db.storage.keys.Nodup
  entry : ∀ id e, db.storage.get? id = some e → e.id = id ∧ id < db.nextId ∧
    e.count = db.accountsIndex.refs id + extra id ∧ AppendVec.Holds e.accounts (recs id)
  index_lt : ∀ key, ∀ v ∈ db.accountsIndex.versions key, v.2.id < db.nextId
  index_fork : ∀ key, ∀ v ∈ db.accountsIndex.versions key, ∀ e,
    db.storage.get? v.2.id = some e → e.forkId = v.1
  lastRoot_eq : db.accountsIndex.lastRoot = a.lastRoot
  agrees : ∀ key, List.Forall₂ (db.Agrees recs) (db.accountsIndex.versions key) (a.versions key)

variable {db : AccountsDB} {a : AccountsDb} {recs : Nat → List (Nat × StoredAccount)}
  {extra : Nat → Nat}

theorem inv_new (fileSize : Nat) :
    Inv (new fileSize) AccountsDb.empty (fun _ => []) (fun _ => 0) where
  storage_nodup := List.nodup_nil
  entry _ _ h := by simp [new, AssocMap.get?] at h
  index_lt _ _ h := by simp [new, AccountsIndex.versions_empty] at h
  index_fork _ _ h := by simp [new, AccountsIndex.versions_empty] at h
  lastRoot_eq := rfl
  agrees _ := List.Forall₂.nil

theorem get?_of_get?_filter {m : AssocMap Nat AccountStorageEntry} (hm : m.keys.Nodup)
    {p : Nat × AccountStorageEntry → Bool} {id : Nat} {e : AccountStorageEntry}
    (h : AssocMap.get? (m.filter p) id = some e) : m.get? id = some e :=
  AssocMap.get?_of_mem hm (List.mem_of_mem_filter (AssocMap.mem_of_get? h))

/-- A storage map after an entry is written back. -/
theorem get?_storage_insert (m : AssocMap Nat AccountStorageEntry) (id : Nat)
    (e : AccountStorageEntry) (id' : Nat) :
    (m.insert id e).get? id' = if id' = id then some e else m.get? id' := by
  split
  · rename_i heq
    rw [heq, AssocMap.get?_insert_self]
  · rename_i hne
    rw [AssocMap.get?_insert_of_ne _ hne]

/-- `purge_fork` only drops storage entries, which no part of the invariant needs. -/
theorem Inv.purgeFork (h : Inv db a recs extra) (fork : Fork) :
    Inv (db.purgeFork fork) a recs extra := by
  unfold AccountsDB.purgeFork
  split
  · exact h
  · have hsub : ∀ id e, AssocMap.get? (db.storage.filter fun e => e.2.forkId != fork) id = some e →
        db.storage.get? id = some e := fun _ _ => get?_of_get?_filter h.storage_nodup
    exact {
      storage_nodup := h.storage_nodup.sublist (List.filter_sublist.map _)
      entry := fun id e he => h.entry id e (hsub id e he)
      index_lt := h.index_lt
      index_fork := fun key v hv e he => h.index_fork key v hv e (hsub _ e he)
      lastRoot_eq := h.lastRoot_eq
      agrees := fun key => (h.agrees key).imp fun _ _ hvw =>
        ⟨hvw.1, fun e he => hvw.2 e (hsub _ e he)⟩ }

/-- Leaving the roots keeps the invariant, which does not read them. -/
theorem Inv.cleanupDeadForks (h : Inv db a recs extra) (deadForks : List Fork) :
    Inv (db.cleanupDeadForks deadForks).1 a recs extra := by
  have hmaps : ∀ (index : AccountsIndex AccountInfo) (forks : List Fork),
      (forks.foldl AccountsIndex.cleanupDeadFork index).accountMaps = index.accountMaps ∧
        (forks.foldl AccountsIndex.cleanupDeadFork index).lastRoot = index.lastRoot := by
    intro index forks
    induction forks generalizing index with
    | nil => exact ⟨rfl, rfl⟩
    | cons f forks ih => exact ih _
  obtain ⟨hm, hl⟩ := hmaps db.accountsIndex (deadForks.filter (· < db.accountsIndex.lastRoot))
  have hidx : (db.cleanupDeadForks deadForks).1.accountsIndex =
      (deadForks.filter (· < db.accountsIndex.lastRoot)).foldl AccountsIndex.cleanupDeadFork
        db.accountsIndex := rfl
  have hvs : ∀ key, (db.cleanupDeadForks deadForks).1.accountsIndex.versions key =
      db.accountsIndex.versions key := fun key => by
    rw [hidx, AccountsIndex.versions, hm]
    rfl
  have hrefs : ∀ id, (db.cleanupDeadForks deadForks).1.accountsIndex.refs id =
      db.accountsIndex.refs id := fun id => by
    rw [hidx, AccountsIndex.refs, hm]
    rfl
  exact {
    storage_nodup := h.storage_nodup
    entry := fun id e he => by rw [hrefs]; exact h.entry id e he
    index_lt := fun key => by rw [hvs]; exact h.index_lt key
    index_fork := fun key => by rw [hvs]; exact h.index_fork key
    lastRoot_eq := by rw [hidx, hl]; exact h.lastRoot_eq
    agrees := fun key => by rw [hvs]; exact h.agrees key }

/-- `add_root` panics where the model's does, and otherwise moves both last roots together. -/
theorem Inv.addRoot (h : Inv db a recs extra) {fork : Fork} {db' : AccountsDB}
    (hr : db.addRoot fork = some db') :
    ∃ a', a.addRoot fork = some a' ∧ Inv db' a' recs extra := by
  unfold AccountsDB.addRoot AccountsIndex.addRoot at hr
  unfold AccountsDb.addRoot
  rw [← h.lastRoot_eq]
  split_ifs at hr ⊢ with hc
  · cases hr
    exact ⟨_, rfl, {
      storage_nodup := h.storage_nodup
      entry := h.entry
      index_lt := h.index_lt
      index_fork := h.index_fork
      lastRoot_eq := rfl
      agrees := h.agrees }⟩
  · simp at hr

/-! ## Writing back a storage entry -/

/-- A storage entry written back with the same id and fork keeps the invariant, when its count
matches the new surplus, its records are what its append vector holds, and either it keeps the
records it had or nothing in the index names it. -/
theorem Inv.update_entry (h : Inv db a recs extra) {id : Nat} {e e' : AccountStorageEntry}
    (he : db.storage.get? id = some e) (hid : e'.id = e.id) (hfork : e'.forkId = e.forkId)
    {extra' : Nat → Nat} (hextra : ∀ id', id' ≠ id → extra' id' = extra id')
    (hcount : e'.count = db.accountsIndex.refs id + extra' id) {recsId : List (Nat × StoredAccount)}
    (hholds : AppendVec.Holds e'.accounts recsId)
    (hkeep : (∀ p ∈ recs id, p ∈ recsId) ∨ db.accountsIndex.refs id = 0) :
    Inv { db with storage := db.storage.insert id e' } a (Function.update recs id recsId) extra' := by
  obtain ⟨hid₀, hlt, -, -⟩ := h.entry id e he
  refine {
    storage_nodup := AssocMap.nodup_keys_insert h.storage_nodup id e'
    entry := fun id' e'' he'' => ?_
    index_lt := h.index_lt
    index_fork := fun key v hv e'' he'' => ?_
    lastRoot_eq := h.lastRoot_eq
    agrees := fun key => ((List.forall₂_and_left _ _).2 ⟨fun v hv => hv, h.agrees key⟩).imp
      fun v w hvw => ⟨hvw.2.1, fun e'' he'' => ?_⟩ }
  · rw [get?_storage_insert] at he''
    split at he''
    · rename_i heq
      subst heq
      cases he''
      exact ⟨hid.trans hid₀, hlt, hcount, by rw [Function.update_self]; exact hholds⟩
    · rename_i hne
      obtain ⟨h₁, h₂, h₃, h₄⟩ := h.entry id' e'' he''
      exact ⟨h₁, h₂, by rw [hextra id' hne]; exact h₃, by rw [Function.update_of_ne hne]; exact h₄⟩
  · rw [get?_storage_insert] at he''
    split at he''
    · rename_i heq
      cases he''
      rw [hfork]
      exact h.index_fork key v hv e (heq ▸ he)
    · exact h.index_fork key v hv e'' he''
  · rw [get?_storage_insert] at he''
    split at he''
    · -- the entry written back: its old records are still there, or nothing names it
      rename_i heq
      obtain ⟨r, hr, hclone⟩ := hvw.2.2 e (heq ▸ he)
      rcases hkeep with hkeep | hzero
      · refine ⟨r, ?_, hclone⟩
        rw [heq, Function.update_self]
        exact hkeep _ (heq ▸ hr)
      · exact absurd heq (AccountsIndex.id_ne_of_refs_eq_zero hzero hvw.1)
    · rename_i hne
      rw [Function.update_of_ne hne]
      exact hvw.2.2 e'' he''

/-- The surplus only matters at the storage entries that stand. -/
theorem Inv.congr_extra (h : Inv db a recs extra) {extra' : Nat → Nat}
    (hextra : ∀ id e, db.storage.get? id = some e → extra id = extra' id) :
    Inv db a recs extra' :=
  { h with
    entry := fun id e he => by
      obtain ⟨h₁, h₂, h₃, h₄⟩ := h.entry id e he
      exact ⟨h₁, h₂, by rw [← hextra id e he]; exact h₃, h₄⟩ }

/-! ## `remove_dead_accounts` -/

/-- Pending references to each storage entry. -/
def surplusOf (rs : List (Fork × AccountInfo)) (id : Nat) : Nat := rs.countP fun r => r.2.id = id

/-- A reclaimed entry whose storage entry stands names that entry's fork. -/
def ReclaimOk (db : AccountsDB) (r : Fork × AccountInfo) : Prop :=
  ∀ e, db.storage.get? r.2.id = some e → e.forkId = r.1

theorem surplusOf_cons (r : Fork × AccountInfo) (rs : List (Fork × AccountInfo)) (id : Nat) :
    surplusOf (r :: rs) id = surplusOf rs id + if r.2.id = id then 1 else 0 := by
  simp [surplusOf, List.countP_cons]

/-- One reclaimed entry off the count of its storage entry: the count covers it, so
`remove_account` does not panic, nor does the assertion on the fork; and when that was the last
account of a full entry, nothing in the index names it any more, so its reset loses no record. -/
theorem Inv.removeDeadAccount {r : Fork × AccountInfo} {rest : List (Fork × AccountInfo)}
    (h : Inv db a recs (surplusOf (r :: rest))) (hr : ReclaimOk db r) :
    ∃ storage', removeDeadAccount db.storage r = some storage' ∧
      ∃ recs', Inv { db with storage := storage' } a recs' (surplusOf rest) ∧
        ∀ r', ReclaimOk db r' → ReclaimOk { db with storage := storage' } r' := by
  unfold AccountsDB.removeDeadAccount
  cases hget : db.storage.get? r.2.id with
  | none =>
    -- no storage entry to count down: the surplus only changes where none stands
    refine ⟨db.storage, rfl, recs, h.congr_extra fun id e he => ?_, fun _ h' => h'⟩
    have hne : r.2.id ≠ id := fun heq => by rw [heq, he] at hget; cases hget
    simp [surplusOf_cons, hne]
  | some e =>
    obtain ⟨hid, -, hcount, hholds⟩ := h.entry _ e hget
    rw [surplusOf_cons, if_pos rfl] at hcount
    dsimp only
    rw [if_pos (hr e hget).symm]
    obtain ⟨e', he'⟩ := Option.ne_none_iff_exists'.1
      (AccountStorageEntry.removeAccount_ne_none (e := e) (by omega))
    rw [he']
    refine ⟨_, rfl, ?_⟩
    obtain ⟨-, hid', hfork', hcount', hacc⟩ := AccountStorageEntry.removeAccount_eq_some he'
    have hextra : ∀ id', id' ≠ r.2.id → surplusOf rest id' = surplusOf (r :: rest) id' :=
      fun id' hne => by simp [surplusOf_cons, Ne.symm hne]
    have hcount'' : e'.count = db.accountsIndex.refs r.2.id + surplusOf rest r.2.id := by omega
    -- the entry written back keeps the fork every reclaim named
    have hmono : ∀ r', ReclaimOk db r' → ReclaimOk { db with storage := db.storage.insert r.2.id e' } r' :=
      fun r' h' e'' he'' => by
        dsimp only at he''
        rw [get?_storage_insert] at he''
        split at he''
        · rename_i heq
          cases he''
          rw [hfork']
          exact h' e (heq ▸ hget)
        · exact h' e'' he''
    rcases hacc with hsame | ⟨hreset, hone⟩
    · exact ⟨_, h.update_entry hget hid' hfork' hextra hcount'' (hsame ▸ hholds)
        (Or.inl fun _ hp => hp), hmono⟩
    · exact ⟨_, h.update_entry hget hid' hfork' hextra hcount'' (hreset ▸ AppendVec.holds_reset _)
        (Or.inr (by omega)), hmono⟩

/-- The reclaims one after another: none panics, and the counts end as the index's. -/
theorem Inv.foldlM_removeDeadAccount :
    ∀ (rs : List (Fork × AccountInfo)) {db : AccountsDB} {recs : Nat → List (Nat × StoredAccount)},
      Inv db a recs (surplusOf rs) → (∀ r ∈ rs, ReclaimOk db r) →
      ∃ storage', rs.foldlM AccountsDB.removeDeadAccount db.storage = some storage' ∧
        ∃ recs', Inv { db with storage := storage' } a recs' fun _ => 0
  | [], db, recs, h, _ => ⟨db.storage, rfl, recs, h⟩
  | r :: rest, db, recs, h, hrs => by
    obtain ⟨storage₁, h₁, recs₁, hinv₁, hmono⟩ := h.removeDeadAccount (hrs r List.mem_cons_self)
    obtain ⟨storage', h', recs', hinv'⟩ := Inv.foldlM_removeDeadAccount rest hinv₁
      fun r' hr' => hmono r' (hrs r' (List.mem_cons_of_mem r hr'))
    refine ⟨storage', ?_, recs', hinv'⟩
    rw [List.foldlM_cons, h₁]
    exact h'

/-! ## `update_index` -/

/-- An info appended for an account and not yet in the index: it names a storage entry below the
next id, of the fork stored to, with a record there that reads as the model's account. -/
def InfoOk (db : AccountsDB) (recs : Nat → List (Nat × StoredAccount)) (forkId : Fork)
    (info : AccountInfo) (account : Account) : Prop :=
  info.id < db.nextId ∧ (∀ e, db.storage.get? info.id = some e → e.forkId = forkId) ∧
    ∃ r, (info.offset, r) ∈ recs info.id ∧ r.cloneAccount = account

theorem surplusOf_append (rs rs' : List (Fork × AccountInfo)) (id : Nat) :
    surplusOf (rs ++ rs') id = surplusOf rs id + surplusOf rs' id := by
  simp [surplusOf, List.countP_append]

/-- Versions that agree keep agreeing under a filter on their forks. -/
theorem agrees_filter (p : Fork → Bool) {xs : List (Fork × AccountInfo)}
    {ys : List (Fork × Account)} (h : List.Forall₂ (db.Agrees recs) xs ys) :
    List.Forall₂ (db.Agrees recs) (xs.filter fun v => p v.1) (ys.filter fun w => p w.1) :=
  List.rel_filter (fun _ _ hvw => by dsimp only; rw [hvw.1]) h

/-- One info into the index, and the same version into the model: the info moves from the pending
infos to the index, and what the index hands back to the pending reclaims. -/
theorem Inv.insert {index : AccountsIndex AccountInfo} {reclaims : List (Fork × AccountInfo)}
    {pending : List AccountInfo} {forkId : Fork} {info : AccountInfo} {account : Account}
    (key : Pubkey) (h : Inv { db with accountsIndex := index } a recs
      fun id => surplusOf reclaims id + (info :: pending).countP fun i => i.id = id)
    (hinfo : InfoOk db recs forkId info account) :
    Inv { db with accountsIndex := (index.insert forkId key info).1 } (a.insert forkId key account)
        recs (fun id => surplusOf (reclaims ++ (index.insert forkId key info).2) id +
          pending.countP fun i => i.id = id) ∧
      ∀ r ∈ (index.insert forkId key info).2, ReclaimOk db r := by
  obtain ⟨hlt, hfork, hrec⟩ := hinfo
  -- each version after the insertion was there before, or is the new one
  have hfrom : ∀ v, v ∈ (index.insert forkId key info).1.versions key ++
      (index.insert forkId key info).2 → v ∈ index.versions key ∨ v = (forkId, info) := by
    intro v hv
    rcases List.mem_append.1 ((AccountsIndex.insert_perm index forkId key info).subset hv) with
      hv | hv
    · exact .inl hv
    · exact .inr (List.mem_singleton.1 hv)
  have hvs : ∀ key' v, v ∈ (index.insert forkId key info).1.versions key' →
      v ∈ index.versions key' ∨ v = (forkId, info) := by
    intro key' v hv
    by_cases hk : key' = key
    · subst hk
      exact hfrom v (List.mem_append_left _ hv)
    · rw [AccountsIndex.versions_insert_of_ne _ hk] at hv
      exact .inl hv
  have hrefs := AccountsIndex.refs_insert index forkId key info
  refine ⟨{
    storage_nodup := h.storage_nodup
    entry := fun id e he => ?_
    index_lt := fun key' v hv => ?_
    index_fork := fun key' v hv e he => ?_
    lastRoot_eq := h.lastRoot_eq
    agrees := fun key' => ?_ }, fun r hr e he => ?_⟩
  · obtain ⟨h₁, h₂, h₃, h₄⟩ := h.entry id e he
    refine ⟨h₁, h₂, ?_, h₄⟩
    have hid : (index.insert forkId key info).1.refs id +
        surplusOf (index.insert forkId key info).2 id =
          index.refs id + if info.id = id then 1 else 0 := hrefs id
    -- the info leaves the pending ones as it enters the index
    simp only [List.countP_cons, decide_eq_true_eq] at h₃
    rw [surplusOf_append]
    dsimp only at h₃ ⊢
    omega
  · rcases hvs key' v hv with hv | rfl
    · exact h.index_lt key' v hv
    · exact hlt
  · rcases hvs key' v hv with hv | rfl
    · exact h.index_fork key' v hv e he
    · exact hfork e he
  · by_cases hk : key' = key
    · subst hk
      have hpurged : index.isPurged = a.isPurged := by
        funext f
        have hroot : index.lastRoot = a.lastRoot := h.lastRoot_eq
        simp [AccountsIndex.isPurged, AccountsDb.isPurged, hroot]
      rw [AccountsIndex.versions_insert_self, hpurged]
      simp only [AccountsDb.insert, AccountsDb.versions_set_self]
      have hnew : db.Agrees recs (forkId, info) (forkId, account) := ⟨rfl, fun _ _ => hrec⟩
      have hold : List.Forall₂ (db.Agrees recs) (index.versions key') (a.versions key') :=
        h.agrees key'
      show List.Forall₂ (db.Agrees recs) _ _
      exact agrees_filter (fun f => !a.isPurged f)
        (List.rel_append (agrees_filter (· != forkId) hold) (.cons hnew .nil))
    · rw [AccountsIndex.versions_insert_of_ne _ hk]
      simp only [AccountsDb.insert, AccountsDb.versions_set_of_ne _ hk]
      exact h.agrees key'
  · rcases hfrom r (List.mem_append_right _ hr) with hr | rfl
    · exact h.index_fork key r hr e he
    · exact hfork e he

/-- The fold of [`updateIndex`]: every info goes into the index and every account into the model,
and all the index hands back is pending to be reclaimed. Induction on the infos still to insert;
the invariant carries the reclaims and the infos as the surplus of the counts. -/
theorem Inv.foldl_insert (forkId : Fork) (pairs : List (AccountInfo × (Pubkey × Account))) :
    ∀ (index : AccountsIndex AccountInfo) (reclaims : List (Fork × AccountInfo)) (a : AccountsDb),
      Inv { db with accountsIndex := index } a recs
        (fun id => surplusOf reclaims id + (pairs.map (·.1)).countP fun i => i.id = id) →
      (∀ p ∈ pairs, InfoOk db recs forkId p.1 (AccountsDb.storedAccount p.2.2)) →
      (∀ r ∈ reclaims, ReclaimOk db r) →
      Inv { db with accountsIndex := (pairs.foldl (fun acc e =>
            let (index, rv) := acc.1.insert forkId e.2.1 e.1
            (index, acc.2 ++ rv)) (index, reclaims)).1 }
          (pairs.foldl (fun a e => a.insert forkId e.2.1 (AccountsDb.storedAccount e.2.2)) a) recs
          (surplusOf (pairs.foldl (fun acc e =>
            let (index, rv) := acc.1.insert forkId e.2.1 e.1
            (index, acc.2 ++ rv)) (index, reclaims)).2) ∧
        ∀ r ∈ (pairs.foldl (fun acc e =>
            let (index, rv) := acc.1.insert forkId e.2.1 e.1
            (index, acc.2 ++ rv)) (index, reclaims)).2, ReclaimOk db r := by
  induction pairs with
  | nil =>
    intro index reclaims a h _ hreclaims
    exact ⟨h.congr_extra fun _ _ _ => by simp, hreclaims⟩
  | cons p pairs ih =>
    intro index reclaims a h hinfos hreclaims
    have hpending : Inv { db with accountsIndex := index } a recs fun id =>
        surplusOf reclaims id + (p.1 :: pairs.map (·.1)).countP fun i => i.id = id := h
    obtain ⟨h', hrv⟩ := hpending.insert p.2.1 (hinfos p List.mem_cons_self)
    exact ih _ _ _ h' (fun q hq => hinfos q (List.mem_cons_of_mem _ hq)) fun r hr =>
      (List.mem_append.1 hr).elim (hreclaims r) (hrv r)

/-- [`updateIndex`] inserts the infos of the stored accounts as [`AccountsDb.store`] inserts the
accounts: the infos' surplus of the counts becomes the surplus of what the index reclaims. -/
theorem Inv.updateIndex {forkId : Fork} {infos : List AccountInfo}
    {accounts : List (Pubkey × Account)} (h : Inv db a recs fun id => infos.countP (·.id = id))
    (hinfos : List.Forall₂ (fun info e => InfoOk db recs forkId info (AccountsDb.storedAccount e.2))
      infos accounts) :
    Inv (db.updateIndex forkId infos accounts).1 (a.store forkId accounts) recs
        (surplusOf (db.updateIndex forkId infos accounts).2) ∧
      ∀ r ∈ (db.updateIndex forkId infos accounts).2, ReclaimOk db r := by
  obtain ⟨hlen, hzip⟩ := List.forall₂_iff_zip.1 hinfos
  have hfst : (infos.zip accounts).map (·.1) = infos := List.map_fst_zip (by omega)
  have hsnd : (infos.zip accounts).map (·.2) = accounts := List.map_snd_zip (by omega)
  have hstore : a.store forkId accounts = (infos.zip accounts).foldl
      (fun a e => a.insert forkId e.2.1 (AccountsDb.storedAccount e.2.2)) a := by
    rw [AccountsDb.store]
    conv_lhs => rw [← hsnd]
    rw [List.foldl_map]
  have h₀ : Inv { db with accountsIndex := db.accountsIndex } a recs fun id =>
      surplusOf [] id + ((infos.zip accounts).map (·.1)).countP fun i => i.id = id := by
    rw [hfst]
    exact h.congr_extra fun _ _ _ => by simp [surplusOf]
  rw [hstore]
  exact Inv.foldl_insert forkId _ _ _ _ h₀ (fun p hp => hzip hp) (by simp)

/-! ## `store_accounts` -/

/-- What `fork_storage` hands back: a new entry under the next id, or one of the fork's available
entries, with the database as it was. -/
theorem forkStorage_cases (db : AccountsDB) (forkId : Fork) (draw : Nat) :
    db.forkStorage forkId draw = ({ db with
        storage := db.storage.insert db.nextId (db.newStorageEntry forkId),
        nextId := db.nextId + 1 }, db.newStorageEntry forkId) ∨
      ((db.forkStorage forkId draw).1 = db ∧
        (∃ k, (k, (db.forkStorage forkId draw).2) ∈ db.storage) ∧
        (db.forkStorage forkId draw).2.forkId = forkId) := by
  unfold forkStorage
  split
  · exact .inl rfl
  · rename_i c cs hcands
    refine .inr ⟨rfl, ?_⟩
    have hmem : (c :: cs).get ⟨draw % (cs.length + 1), Nat.mod_lt _ (Nat.succ_pos _)⟩ ∈
        (db.storage.filter fun e =>
          e.2.status = .storageAvailable ∧ e.2.forkId = forkId).map (·.2) := by
      rw [hcands]
      exact List.get_mem _ _
    obtain ⟨⟨k, e⟩, hke, heq⟩ := List.mem_map.1 hmem
    have hke' := List.mem_filter.1 hke
    simp only [decide_eq_true_eq] at hke'
    rw [← heq]
    exact ⟨⟨k, hke'.1⟩, hke'.2.2⟩

/-- From `db` to `db'` within a store to `forkId`: ids are only taken, and an entry is the one that
stood or one of the fork. -/
structure Extends (db db' : AccountsDB) (forkId : Fork) : Prop where
  nextId_le : db.nextId ≤ db'.nextId
  get? : ∀ id e, db'.storage.get? id = some e → db.storage.get? id = some e ∨ e.forkId = forkId

theorem Extends.trans {db₁ db₂ : AccountsDB} {forkId : Fork} (h₁ : Extends db db₁ forkId)
    (h₂ : Extends db₁ db₂ forkId) : Extends db db₂ forkId where
  nextId_le := h₁.nextId_le.trans h₂.nextId_le
  get? id e he := (h₂.get? id e he).elim (h₁.get? id e) .inr

/-- An info stays in place while the database extends and its entry keeps its records. -/
theorem InfoOk.mono {db' : AccountsDB} {recs' : Nat → List (Nat × StoredAccount)} {forkId : Fork}
    {info : AccountInfo} {account : Account} (h : InfoOk db recs forkId info account)
    (hext : Extends db db' forkId) (hrecs : ∀ p ∈ recs info.id, p ∈ recs' info.id) :
    InfoOk db' recs' forkId info account := by
  obtain ⟨hlt, hfork, r, hr, hclone⟩ := h
  refine ⟨Nat.lt_of_lt_of_le hlt hext.nextId_le, fun e he => ?_, r, hrecs _ hr, hclone⟩
  rcases hext.get? _ e he with he | he
  · exact hfork e he
  · exact he

/-- Writing back an entry of the fork extends the database. -/
theorem extends_insert (db : AccountsDB) {forkId : Fork} (id : Nat) {e : AccountStorageEntry}
    (he : e.forkId = forkId) : Extends db { db with storage := db.storage.insert id e } forkId where
  nextId_le := le_rfl
  get? id' e' he' := by
    dsimp only at he'
    rw [get?_storage_insert] at he'
    split at he'
    · cases he'
      exact .inr he
    · exact .inl he'

/-- A new storage entry under the next id, empty and named by nothing, keeps the invariant. -/
theorem Inv.newStorage (h : Inv db a recs extra) (hextra : extra db.nextId = 0) (forkId : Fork) :
    Inv { db with
        storage := db.storage.insert db.nextId (db.newStorageEntry forkId)
        nextId := db.nextId + 1 } a (Function.update recs db.nextId []) extra := by
  have hne : ∀ key, ∀ v ∈ db.accountsIndex.versions key, v.2.id ≠ db.nextId :=
    fun key v hv => Nat.ne_of_lt (h.index_lt key v hv)
  refine {
    storage_nodup := AssocMap.nodup_keys_insert h.storage_nodup _ _
    entry := fun id e he => ?_
    index_lt := fun key v hv => Nat.lt_succ_of_lt (h.index_lt key v hv)
    index_fork := fun key v hv e he => ?_
    lastRoot_eq := h.lastRoot_eq
    agrees := fun key => ((List.forall₂_and_left _ _).2 ⟨fun v hv => hv, h.agrees key⟩).imp
      fun v w hvw => ⟨hvw.2.1, fun e he => ?_⟩ }
  · dsimp only at he ⊢
    rw [get?_storage_insert] at he
    split at he
    · rename_i heq
      subst heq
      cases he
      refine ⟨rfl, Nat.lt_succ_self _, ?_, ?_⟩
      · rw [AccountsIndex.refs_eq_zero hne, hextra]
        rfl
      · rw [Function.update_self]
        exact AppendVec.holds_reset (AppendVec.new db.fileSize)
    · rename_i hid
      obtain ⟨h₁, h₂, h₃, h₄⟩ := h.entry id e he
      exact ⟨h₁, Nat.lt_succ_of_lt h₂, h₃, by rw [Function.update_of_ne hid]; exact h₄⟩
  · dsimp only at he
    rw [get?_storage_insert, if_neg (hne key v hv)] at he
    exact h.index_fork key v hv e he
  · dsimp only at he
    rw [get?_storage_insert, if_neg (hne key v hvw.1)] at he
    rw [Function.update_of_ne (hne key v hvw.1)]
    exact hvw.2.2 e he

/-- `fork_storage` keeps the invariant and hands back an entry of the fork that stands; a new one
starts with no records, which no id below the next one sees. -/
theorem Inv.forkStorage (h : Inv db a recs extra) (hextra : extra db.nextId = 0) (forkId : Fork)
    (draw : Nat) :
    ∃ recs', Inv (db.forkStorage forkId draw).1 a recs' extra ∧
      (∀ id, id < db.nextId → recs' id = recs id) ∧
      (db.forkStorage forkId draw).1.storage.get? (db.forkStorage forkId draw).2.id =
        some (db.forkStorage forkId draw).2 ∧
      (db.forkStorage forkId draw).2.forkId = forkId ∧
      Extends db (db.forkStorage forkId draw).1 forkId ∧
      (db.forkStorage forkId draw).1.accountsIndex = db.accountsIndex := by
  rcases forkStorage_cases db forkId draw with hnew | ⟨hdb, ⟨k, hk⟩, hfork⟩
  · rw [hnew]
    exact ⟨Function.update recs db.nextId [], h.newStorage hextra forkId,
      fun id hid => Function.update_of_ne (Nat.ne_of_lt hid) _ _, AssocMap.get?_insert_self _ _ _,
      rfl, ⟨Nat.le_succ _, (extends_insert db db.nextId (e := db.newStorageEntry forkId) rfl).get?⟩,
      rfl⟩
  · have hget : db.storage.get? k = some (db.forkStorage forkId draw).2 :=
      AssocMap.get?_of_mem h.storage_nodup hk
    have hid := (h.entry k _ hget).1
    refine ⟨recs, ?_, fun _ _ => rfl, ?_, hfork, ?_, by rw [hdb]⟩
    · rw [hdb]
      exact h
    · rw [hdb, hid]
      exact hget
    · rw [hdb]
      exact ⟨le_rfl, fun _ _ he => .inl he⟩

/-- Pairs of a shorter list with a longer one, mapped, against the longer one's prefix. -/
theorem forall₂_map_zip {α β γ : Type} {R : γ → β → Prop} (f : α × β → γ) :
    ∀ (l₁ : List α) (l₂ : List β), l₁.length ≤ l₂.length → (∀ p ∈ l₁.zip l₂, R (f p) p.2) →
      List.Forall₂ R ((l₁.zip l₂).map f) (l₂.take l₁.length)
  | [], _, _, _ => .nil
  | _ :: _, [], h, _ => absurd h (by simp)
  | a :: l₁, b :: l₂, h, hR =>
    .cons (hR (a, b) List.mem_cons_self) (forall₂_map_zip f l₁ l₂ (by simpa using h)
      fun p hp => hR p (List.mem_cons_of_mem _ hp))

/-- The loop of `store_accounts` part way: the infos of the accounts appended so far, pending as
the surplus of the counts, each in place for its account. -/
def LoopInv (db : AccountsDB) (a : AccountsDb) (forkId : Fork) (wm : List (StorageMeta × Account))
    (infos : List AccountInfo) : Prop :=
  ∃ recs, Inv db a recs (fun id => infos.countP (·.id = id)) ∧
    List.Forall₂ (fun info e => InfoOk db recs forkId info (AccountsDb.storedAccount e.2)) infos
      (wm.take infos.length)

/-- Pending infos name only ids already taken. -/
theorem countP_id_nextId {forkId : Fork} {infos : List AccountInfo} {ws : List (StorageMeta × Account)}
    (h : List.Forall₂ (fun info e => InfoOk db recs forkId info (AccountsDb.storedAccount e.2))
      infos ws) : infos.countP (·.id = db.nextId) = 0 := by
  have hall := ((List.forall₂_and_left _ _).1
    (h.imp fun info _ hinfo => ⟨hinfo.1, trivial⟩ : List.Forall₂ (fun info (_ : StorageMeta × Account) =>
      info.id < db.nextId ∧ True) infos ws)).1
  rw [List.countP_eq_zero]
  intro info hinfo
  simpa using Nat.ne_of_lt (hall info hinfo)

theorem LoopInv.storeAccountsStep {forkId : Fork} {wm : List (StorageMeta × Account)}
    {infos : List AccountInfo} (h : LoopInv db a forkId wm infos)
    (hwm : ∀ e ∈ wm, (AppendVec.record (fun _ => 0) e.1 e.2).cloneAccount =
      AccountsDb.storedAccount e.2) (draw : Nat) :
    LoopInv (db.storeAccountsStep forkId wm infos draw).1 a forkId wm
      (db.storeAccountsStep forkId wm infos draw).2 := by
  obtain ⟨recs, hinv, hinfos⟩ := h
  have hfs := hinv.forkStorage (countP_id_nextId hinfos) forkId draw
  cases hres : db.forkStorage forkId draw with
  | mk db₁ s =>
  rw [hres] at hfs
  obtain ⟨recs₁, hinv₁, hrecs₁, hget₁, hfork₁, hext₁, -⟩ := hfs
  dsimp only at hinv₁ hget₁ hfork₁ hext₁
  cases happ : s.accounts.appendAccounts (fun _ => 0) (wm.drop infos.length) with
  | mk av rvs =>
  obtain ⟨hlen, hholds⟩ := (hinv₁.entry s.id s hget₁).2.2.2.appendAccounts happ
  obtain ⟨hid₃, hfork₃, hcount₃, hacc₃⟩ := AccountStorageEntry.appendStatus_cases s av rvs
  unfold AccountsDB.storeAccountsStep
  rw [hres]
  dsimp only
  rw [happ]
  dsimp only
  rw [AccountStorageEntry.foldl_addAccount]
  generalize (if rvs.isEmpty = true then
    ({ s with accounts := av } : AccountStorageEntry).setStatus .storageFull
    else { s with accounts := av }) = s₃ at hid₃ hfork₃ hcount₃ hacc₃ ⊢
  generalize hs₄ : ({ s₃ with count := s₃.count + rvs.length } : AccountStorageEntry) = s₄
  have hid₄ : s₄.id = s.id := by rw [← hs₄]; exact hid₃
  have hfork₄ : s₄.forkId = forkId := by rw [← hs₄]; exact hfork₃.trans hfork₁
  have hcount₄ : s₄.count = s.count + rvs.length := by rw [← hs₄]; exact congrArg (· + _) hcount₃
  have hacc₄ : s₄.accounts = s₃.accounts := by rw [← hs₄]
  rw [hid₄]
  obtain ⟨-, hlt₁, hcnt₁, -⟩ := hinv₁.entry s.id s hget₁
  have hext : Extends db { db₁ with storage := db₁.storage.insert s.id s₄ } forkId :=
    hext₁.trans (extends_insert db₁ s.id hfork₄)
  -- the infos of earlier iterations stay in place, whatever the entry written back keeps
  have hold : ∀ recsId, ((∀ p ∈ recs₁ s.id, p ∈ recsId) ∨ ∀ info ∈ infos, info.id ≠ s.id) →
      List.Forall₂ (fun info e => InfoOk { db₁ with storage := db₁.storage.insert s.id s₄ }
        (Function.update recs₁ s.id recsId) forkId info (AccountsDb.storedAccount e.2)) infos
        (wm.take infos.length) := fun recsId hkeep =>
    ((List.forall₂_and_left _ _).2 ⟨fun info hinfo => hinfo, hinfos⟩).imp fun info _ hinfo =>
      hinfo.2.mono hext fun p hp => by
        rw [← hrecs₁ _ hinfo.2.1] at hp
        by_cases hid : info.id = s.id
        · rw [hid, Function.update_self]
          rw [hid] at hp
          exact hkeep.elim (fun hkeep => hkeep p hp) fun hne => absurd hid (hne info hinfo.1)
        · rw [Function.update_of_ne hid]
          exact hp
  rcases hacc₃ with hacc₃ | ⟨hacc₃, hzero, rfl⟩
  · -- the entry keeps its records, and those appended follow them, one new info each
    have hnew : ∀ id, ((rvs.zip (wm.drop infos.length)).map fun e =>
        (⟨s.id, e.1, e.2.2.difs⟩ : AccountInfo)).countP (·.id = id) =
          if s.id = id then rvs.length else 0 := fun id => by
      split <;> simp_all [List.countP_map, Function.comp_def]
    set recsId := recs₁ s.id ++ rvs.zip ((wm.drop infos.length).map fun e =>
      AppendVec.record (fun _ => 0) e.1 e.2)
    refine ⟨Function.update recs₁ s.id recsId, ?_, ?_⟩
    · refine hinv₁.update_entry hget₁ hid₄ (hfork₄.trans hfork₁.symm) (fun id hid => ?_) ?_
        (by rw [hacc₄, hacc₃]; exact hholds) (.inl fun p hp => List.mem_append_left _ hp)
      · rw [List.countP_append, hnew, if_neg (Ne.symm hid), Nat.add_zero]
      · rw [List.countP_append, hnew, if_pos rfl, hcount₄, hcnt₁, Nat.add_assoc]
    · rw [List.length_append, List.length_map, List.length_zip, Nat.min_eq_left hlen,
        List.take_add]
      refine List.rel_append (hold recsId (.inl fun p hp => List.mem_append_left _ hp))
        (forall₂_map_zip _ rvs _ hlen fun p hp => ⟨hlt₁, fun e he => ?_, _, ?_,
          hwm p.2 (List.mem_of_mem_drop (List.of_mem_zip hp).2)⟩)
      · dsimp only at he
        rw [AssocMap.get?_insert_self] at he
        cases he
        exact hfork₄
      · rw [Function.update_self]
        refine List.mem_append_right _ ?_
        rw [List.zip_map_right]
        exact List.mem_map.2 ⟨p, hp, rfl⟩
  · -- nothing fit and the entry, counting nothing, was reset
    have hrefs : db₁.accountsIndex.refs s.id = 0 := by omega
    have hnone : ∀ info ∈ infos, info.id ≠ s.id := fun info hinfo hid => by
      have : 0 < infos.countP (·.id = s.id) := List.countP_pos_iff.2 ⟨info, hinfo, by simpa using hid⟩
      omega
    refine ⟨Function.update recs₁ s.id [], ?_, ?_⟩
    · refine hinv₁.update_entry hget₁ hid₄ (hfork₄.trans hfork₁.symm) (fun _ _ => by simp) ?_
        (by rw [hacc₄, hacc₃]; exact AppendVec.holds_reset av) (.inr hrefs)
      simp [hcount₄, hrefs]
      omega
    · simpa using hold [] (.inr hnone)

theorem LoopInv.length_le {forkId : Fork} {wm : List (StorageMeta × Account)}
    {infos : List AccountInfo} (h : LoopInv db a forkId wm infos) : infos.length ≤ wm.length := by
  obtain ⟨_, _, hinfos⟩ := h
  have hlen := hinfos.length_eq
  rw [List.length_take] at hlen
  omega

/-- The loop of `store_accounts`, when it ends within its draws, has appended every account.  The
induction is on the draws, one iteration each. -/
theorem LoopInv.storeAccountsLoop {forkId : Fork} {wm : List (StorageMeta × Account)}
    (hwm : ∀ e ∈ wm, (AppendVec.record (fun _ => 0) e.1 e.2).cloneAccount =
      AccountsDb.storedAccount e.2) :
    ∀ (draws : List Nat) {db db' : AccountsDB} {infos infos' : List AccountInfo},
      LoopInv db a forkId wm infos →
      AccountsDB.storeAccountsLoop forkId wm db draws infos = some (db', infos') →
      LoopInv db' a forkId wm infos' ∧ infos'.length = wm.length
  | [], db, db', infos, infos', h, hr => by
    rw [AccountsDB.storeAccountsLoop] at hr
    split at hr
    · cases hr
    · rename_i hge
      cases hr
      exact ⟨h, Nat.le_antisymm h.length_le (Nat.le_of_not_lt hge)⟩
  | draw :: draws, db, db', infos, infos', h, hr => by
    rw [AccountsDB.storeAccountsLoop] at hr
    split at hr
    · have h₁ := h.storeAccountsStep hwm draw
      cases hstep : db.storeAccountsStep forkId wm infos draw with
      | mk db₁ infos₁ =>
        rw [hstep] at h₁ hr
        exact LoopInv.storeAccountsLoop hwm draws h₁ hr
    · rename_i hge
      cases hr
      exact ⟨h, Nat.le_antisymm h.length_le (Nat.le_of_not_lt hge)⟩

/-- The accounts `store_accounts` appends are the accounts given. -/
theorem map_snd_withMeta (db : AccountsDB) (accounts : List (Pubkey × Account)) :
    (db.withMeta accounts).map (·.2) = accounts.map (·.2) :=
  List.ext_getElem (by simp [withMeta]) fun i _ _ => by simp [withMeta]

/-- With data shorter than 2^64 bytes, as a Rust vector's always is, the `data_len` of an account's
meta cuts nothing but what storage drops, so its record reads as the stored account. -/
theorem cloneAccount_record_withMeta {accounts : List (Pubkey × Account)}
    (hlen : ∀ e ∈ accounts, e.2.data.length < 2 ^ 64) :
    ∀ e ∈ db.withMeta accounts, (AppendVec.record (fun _ => 0) e.1 e.2).cloneAccount =
      AccountsDb.storedAccount e.2 := by
  intro e he
  obtain ⟨i, hi, rfl⟩ := List.mem_mapIdx.1 he
  have hl := hlen _ (List.getElem_mem hi)
  have hdataLen : (if accounts[i].2.difs = 0 then (0 : UInt64)
      else UInt64.ofNat accounts[i].2.data.length).toNat =
        if accounts[i].2.difs = 0 then 0 else accounts[i].2.data.length := by
    split
    · rfl
    · rw [UInt64.toNat_ofNat', Nat.mod_eq_of_lt hl]
  rw [AppendVec.cloneAccount_record (by dsimp only; rw [hdataLen]; split <;> simp)]
  dsimp only
  rw [hdataLen, AccountsDb.storedAccount]
  split
  · rw [List.take_zero]
  · rw [List.take_length]

/-- The invariant does not read the write version. -/
theorem Inv.withWriteVersion (h : Inv db a recs extra) (w : Nat) :
    Inv { db with writeVersion := w } a recs extra :=
  ⟨h.storage_nodup, h.entry, h.index_lt, h.index_fork, h.lastRoot_eq, h.agrees⟩

/-- `store_accounts`, when its loop ends, appends each account once, with its info in place and
pending as surplus of the counts. -/
theorem Inv.storeAccounts (h : Inv db a recs fun _ => 0) {forkId : Fork}
    {accounts : List (Pubkey × Account)} {draws : List Nat}
    (hlen : ∀ e ∈ accounts, e.2.data.length < 2 ^ 64) {db₁ : AccountsDB} {infos : List AccountInfo}
    (hr : db.storeAccounts forkId accounts draws = some (db₁, infos)) :
    ∃ recs₁, Inv db₁ a recs₁ (fun id => infos.countP (·.id = id)) ∧
      List.Forall₂ (fun info e => InfoOk db₁ recs₁ forkId info (AccountsDb.storedAccount e.2))
        infos accounts := by
  have h₀ : Inv { db with writeVersion := db.writeVersion + accounts.length } a recs
      fun id => ([] : List AccountInfo).countP (·.id = id) :=
    (h.withWriteVersion _).congr_extra fun _ _ _ => List.countP_nil.symm
  have hstart : LoopInv { db with writeVersion := db.writeVersion + accounts.length } a forkId
      (db.withMeta accounts) [] := ⟨recs, h₀, .nil⟩
  obtain ⟨⟨recs₁, hinv, hinfos⟩, hdone⟩ :=
    hstart.storeAccountsLoop (cloneAccount_record_withMeta hlen) draws hr
  refine ⟨recs₁, hinv, ?_⟩
  rw [hdone, List.take_length] at hinfos
  have hsnd : List.Forall₂ (fun info account => InfoOk db₁ recs₁ forkId info
      (AccountsDb.storedAccount account)) infos ((db.withMeta accounts).map (·.2)) :=
    List.forall₂_map_right_iff.2 hinfos
  rw [map_snd_withMeta] at hsnd
  have hres := List.forall₂_map_right_iff.1 hsnd
  exact hres

/-! ## `store` -/

/-- `remove_dead_accounts` takes every pending reclaim off the counts without a panic. -/
theorem Inv.removeDeadAccounts {rs : List (Fork × AccountInfo)} (h : Inv db a recs (surplusOf rs))
    (hrs : ∀ r ∈ rs, ReclaimOk db r) :
    ∃ res, db.removeDeadAccounts rs = some res ∧ ∃ recs', Inv res.1 a recs' fun _ => 0 := by
  obtain ⟨storage', hfold, recs', hinv⟩ := Inv.foldlM_removeDeadAccount rs h hrs
  unfold AccountsDB.removeDeadAccounts
  rw [hfold]
  exact ⟨_, rfl, recs', hinv⟩

/-- The purges that end a store only drop storage. -/
theorem Inv.foldl_purgeFork (forks : List Fork) :
    ∀ {db : AccountsDB}, Inv db a recs extra → Inv (forks.foldl AccountsDB.purgeFork db) a recs extra := by
  induction forks with
  | nil => exact fun h => h
  | cons fork forks ih => exact fun h => ih (h.purgeFork fork)

/-- A `store` whose loop ends does not panic, and moves the invariant to the model's store of the
same accounts. -/
theorem Inv.store (h : Inv db a recs fun _ => 0) {forkId : Fork} {accounts : List (Pubkey × Account)}
    {draws : List Nat} (hlen : ∀ e ∈ accounts, e.2.data.length < 2 ^ 64) {r : Option AccountsDB}
    (hr : db.store forkId accounts draws = some r) :
    ∃ db', r = some db' ∧ ∃ recs', Inv db' (a.store forkId accounts) recs' fun _ => 0 := by
  unfold AccountsDB.store at hr
  cases hsa : db.storeAccounts forkId accounts draws with
  | none =>
    rw [hsa] at hr
    cases hr
  | some res =>
    obtain ⟨db₁, infos⟩ := res
    rw [hsa, Option.map_some, Option.some_inj] at hr
    obtain ⟨recs₁, hinv₁, hinfos⟩ := h.storeAccounts hlen hsa
    obtain ⟨hinv₂, hok⟩ := hinv₁.updateIndex hinfos
    -- the index update leaves the storage as it was
    have hok₂ : ∀ r ∈ (db₁.updateIndex forkId infos accounts).2,
        ReclaimOk (db₁.updateIndex forkId infos accounts).1 r := hok
    cases hu : db₁.updateIndex forkId infos accounts with
    | mk db₂ reclaims =>
    rw [hu] at hinv₂ hok₂
    obtain ⟨⟨db₃, deadForks⟩, hrem, recs₃, hinv₃⟩ := hinv₂.removeDeadAccounts hok₂
    rw [hu] at hr
    dsimp only at hr
    rw [hrem] at hr
    refine ⟨_, hr.symm, recs₃, Inv.foldl_purgeFork _ ?_⟩
    exact hinv₃.cleanupDeadForks deadForks

/-! ## Sequences of calls -/

/-- A call on the database: `store`, `add_root` or `purge_fork`. -/
inductive StoreOp where
  | store (forkId : Fork) (accounts : List (Pubkey × Account)) (draws : List Nat)
  | addRoot (fork : Fork)
  | purgeFork (fork : Fork)

namespace StoreOp

/-- The accounts a call stores. -/
def accounts : StoreOp → List (Pubkey × Account)
  | store _ accounts _ => accounts
  | _ => []

/-- One call; `none` when it panics, or when the loop of `store_accounts` has not ended within the
draws. -/
def apply (db : AccountsDB) : StoreOp → Option AccountsDB
  | store forkId accounts draws => (db.store forkId accounts draws).join
  | addRoot fork => db.addRoot fork
  | purgeFork fork => some (db.purgeFork fork)

/-- The same call on the index-level model: the accounts inserted as storage keeps them. -/
def indexOps : StoreOp → List AccountsDb.IndexOp
  | store forkId accounts _ => accounts.map fun e => .insert forkId e.1 (AccountsDb.storedAccount e.2)
  | addRoot fork => [.addRoot fork]
  | purgeFork _ => []

end StoreOp

/-- The calls in order. -/
def runStoreOps (db : AccountsDB) (ops : List StoreOp) : Option AccountsDB :=
  ops.foldlM StoreOp.apply db

theorem runOps_store (a : AccountsDb) (forkId : Fork) (accounts : List (Pubkey × Account)) :
    a.runOps (accounts.map fun e => .insert forkId e.1 (AccountsDb.storedAccount e.2)) =
      some (a.store forkId accounts) := by
  induction accounts generalizing a with
  | nil => rfl
  | cons e accounts ih =>
    simp only [List.map_cons, AccountsDb.runOps, List.foldlM_cons] at ih ⊢
    exact ih _

/-- One call keeps the invariant, against the model after the same call. -/
theorem Inv.apply (h : Inv db a recs fun _ => 0) {op : StoreOp}
    (hlen : ∀ e ∈ op.accounts, e.2.data.length < 2 ^ 64) {db' : AccountsDB}
    (hop : op.apply db = some db') :
    ∃ a', a.runOps op.indexOps = some a' ∧ ∃ recs', Inv db' a' recs' fun _ => 0 := by
  cases op with
  | store forkId accounts draws =>
    obtain ⟨db'', hsome, recs', hinv⟩ := h.store hlen (Option.join_eq_some_iff.1 hop)
    cases hsome
    exact ⟨_, runOps_store a forkId accounts, recs', hinv⟩
  | addRoot fork =>
    obtain ⟨a', ha', hinv⟩ := h.addRoot hop
    refine ⟨a', ?_, recs, hinv⟩
    simp [StoreOp.indexOps, AccountsDb.runOps, AccountsDb.applyOp, ha']
  | purgeFork fork =>
    cases hop
    exact ⟨a, rfl, recs, h.purgeFork fork⟩

/-- Every run of calls keeps the invariant, against the model after the same calls.  The induction
is on the calls. -/
theorem Inv.runStoreOps (ops : List StoreOp) :
    ∀ {db db' : AccountsDB} {a : AccountsDb} {recs : Nat → List (Nat × StoredAccount)},
      Inv db a recs (fun _ => 0) → (∀ op ∈ ops, ∀ e ∈ op.accounts, e.2.data.length < 2 ^ 64) →
      AccountsDB.runStoreOps db ops = some db' →
      ∃ a', a.runOps (ops.flatMap StoreOp.indexOps) = some a' ∧
        ∃ recs', Inv db' a' recs' fun _ => 0 := by
  induction ops with
  | nil =>
    intro db db' a recs h _ hrun
    cases hrun
    exact ⟨a, rfl, recs, h⟩
  | cons op ops ih =>
    intro db db' a recs h hlen hrun
    simp only [AccountsDB.runStoreOps, List.foldlM_cons, Option.bind_eq_bind] at hrun
    cases hop : op.apply db with
    | none =>
      rw [hop] at hrun
      cases hrun
    | some db₁ =>
      rw [hop, Option.bind_some] at hrun
      obtain ⟨a₁, ha₁, recs₁, h₁⟩ := h.apply (hlen op List.mem_cons_self) hop
      obtain ⟨a', ha', recs', h'⟩ :=
        ih h₁ (fun op' hop' => hlen op' (List.mem_cons_of_mem _ hop')) hrun
      refine ⟨a', ?_, recs', h'⟩
      simp only [List.flatMap_cons, AccountsDb.runOps, List.foldlM_append] at ha₁ ha' ⊢
      rw [ha₁]
      exact ha'

/-! ## The storage accounting -/

/-- At rest, an entry counts exactly the index entries that name it. -/
theorem Inv.count_eq (h : Inv db a recs fun _ => 0) {id : Nat} {e : AccountStorageEntry}
    (he : db.storage.get? id = some e) : e.count = db.accountsIndex.refs id :=
  (h.entry id e he).2.2.1

/-- What `load` reads for each version of the index, while its storage entry stands, is the
model's account. -/
theorem Inv.getAccount (h : Inv db a recs extra) (key : Pubkey) :
    List.Forall₂ (fun v w => v.1 = w.1 ∧ ∀ e, db.storage.get? v.2.id = some e →
        (e.accounts.getAccount v.2.offset).map (·.1.cloneAccount) = some w.2)
      (db.accountsIndex.versions key) (a.versions key) :=
  (h.agrees key).imp fun v w hvw => ⟨hvw.1, fun e he => by
    obtain ⟨r, hr, hclone⟩ := hvw.2 e he
    rw [AppendVec.getAccount_of_laid (h.entry _ e he).2.2.2.laid hr, Option.map_some, hclone]⟩

theorem accounts_db_storage_counts (fileSize : Nat) (ops : List StoreOp)
    (hlen : ∀ op ∈ ops, ∀ e ∈ op.accounts, e.2.data.length < 2 ^ 64) {db : AccountsDB}
    (hrun : (AccountsDB.new fileSize).runStoreOps ops = some db) :
    (∀ id e, db.storage.get? id = some e → e.count = db.accountsIndex.refs id) ∧
      (∀ forkId accounts draws, (∀ e ∈ accounts, e.2.data.length < 2 ^ 64) →
        db.store forkId accounts draws ≠ some none) ∧
      ∃ a, AccountsDb.empty.runOps (ops.flatMap StoreOp.indexOps) = some a ∧
        ∀ key, List.Forall₂ (fun v w => v.1 = w.1 ∧ ∀ e, db.storage.get? v.2.id = some e →
            (e.accounts.getAccount v.2.offset).map (·.1.cloneAccount) = some w.2)
          (db.accountsIndex.versions key) (a.versions key) := by
  obtain ⟨a, ha, recs, h⟩ := Inv.runStoreOps ops (inv_new fileSize) hlen hrun
  refine ⟨fun id e he => h.count_eq he, fun forkId accounts draws hlen' hpanic => ?_,
    a, ha, h.getAccount⟩
  obtain ⟨_, hnone, _⟩ := h.store hlen' hpanic
  cases hnone

/-- Two stores of one key on one fork, the second reclaiming the first's entry, then a root and a
store on the next fork. -/
def replaceOps : List StoreOp :=
  [.store 0 [(⟨Vector.replicate 32 1⟩, ⟨1, 0, [7], default, false⟩)] [0],
    .store 0 [(⟨Vector.replicate 32 1⟩, ⟨2, 0, [7, 8], default, false⟩)] [0],
    .addRoot 0,
    .store 1 [(⟨Vector.replicate 32 1⟩, ⟨3, 0, [], default, false⟩)] [0]]

theorem accounts_db_storage_counts_replaced_version :
    ∃ db, (AccountsDB.new 1024).runStoreOps replaceOps = some db ∧
      ∀ id e, db.storage.get? id = some e → e.count = db.accountsIndex.refs id := by
  obtain ⟨db, hrun⟩ : ∃ db, (AccountsDB.new 1024).runStoreOps replaceOps = some db :=
    Option.isSome_iff_exists.1 (by decide +kernel)
  exact ⟨db, hrun, (accounts_db_storage_counts 1024 replaceOps (by decide) hrun).1⟩

end AccountsDB

end Morgan
