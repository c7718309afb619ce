import Mathlib
import Morgan.Kvstore.Consistency
import Morgan.Lib.Machine

/-!
# The levels of tables

`pages[n]` maps the first key of each table of level `n` to the table.  Every way a table gets
into the levels keeps two facts of it: it sits under its own `meta.start`, and its `meta.level` is
the number of its level.  A flush puts a level-0 table into level 0, a compaction makes tables of
the level it fills, loading a root sorts each table into its own level, and the store installs
only levels its compactor answered; so in every state the store and its compactor reach, the levels
are placed (`Reachable.placed`).

What the keying cannot hold is two level-0 tables with one first key, which flushes make: the
later table takes the earlier one's place, and the earlier one, an active table that no compaction
took, is gone from the levels (`flush_displaces_level0_table`).
-/

namespace Morgan

namespace Kvstore

open ExceptState

variable {κ : Type} [LinearOrder κ]

/-! ## Placed levels -/

/-- Each table of level `i`'s map sits under its first key and is of level `i`. -/
def LevelPlaced (i : Nat) (level : SortedMap κ (SSTable κ)) : Prop :=
  ∀ e ∈ level, e.1 = e.2.indexMeta.start ∧ e.2.indexMeta.level = i

/-- Every level is placed. -/
def WellPlaced (tables : TableVec κ) : Prop :=
  ∀ i level, tables[i]? = some level → LevelPlaced i level

omit [LinearOrder κ] in
theorem LevelPlaced.nil (i : Nat) : LevelPlaced i ([] : SortedMap κ (SSTable κ)) :=
  fun _ he => absurd he List.not_mem_nil

theorem LevelPlaced.insert {i : Nat} {level : SortedMap κ (SSTable κ)} (h : LevelPlaced i level)
    {sst : SSTable κ} (hsst : sst.indexMeta.level = i) :
    LevelPlaced i (level.insert sst.indexMeta.start sst) := by
  intro e he
  rcases SortedMap.mem_insert he with rfl | he
  · exact ⟨rfl, hsst⟩
  · exact h e he

theorem LevelPlaced.erase {i : Nat} {level : SortedMap κ (SSTable κ)} (h : LevelPlaced i level)
    (key : κ) : LevelPlaced i (level.erase key) :=
  fun e he => h e (SortedMap.mem_erase he)

theorem LevelPlaced.append {i : Nat} {level other : SortedMap κ (SSTable κ)}
    (h : LevelPlaced i level) (h' : LevelPlaced i other) : LevelPlaced i (level.append other) :=
  fun e he => (SortedMap.mem_append he).elim (h e) (h' e)

theorem LevelPlaced.foldl_erase {i : Nat} {level : SortedMap κ (SSTable κ)}
    (h : LevelPlaced i level) (es : List (κ × SSTable κ)) :
    LevelPlaced i (es.foldl (fun m e => SortedMap.erase m e.1) level) := by
  induction es generalizing level with
  | nil => exact h
  | cons e es ih => exact ih (h.erase e.1)

omit [LinearOrder κ] in
theorem WellPlaced.nil : WellPlaced ([] : TableVec κ) := by
  intro i level hi
  cases hi

omit [LinearOrder κ] in
theorem WellPlaced.modify {tables : TableVec κ} (h : WellPlaced tables) {i : Nat}
    {f : SortedMap κ (SSTable κ) → SortedMap κ (SSTable κ)}
    (hf : ∀ level, tables[i]? = some level → LevelPlaced i (f level)) :
    WellPlaced (tables.modify i f) := by
  intro j level hj
  rw [List.getElem?_modify] at hj
  obtain ⟨level₀, h₀, hlevel⟩ := Option.map_eq_some_iff.1 hj
  by_cases hij : i = j
  · subst hij
    rw [if_pos rfl] at hlevel
    exact hlevel ▸ hf level₀ h₀
  · rw [if_neg hij] at hlevel
    exact hlevel ▸ h j level₀ h₀

omit [LinearOrder κ] in
theorem WellPlaced.set {tables : TableVec κ} (h : WellPlaced tables) {i : Nat}
    {level : SortedMap κ (SSTable κ)} (hlevel : LevelPlaced i level) :
    WellPlaced (tables.set i level) := by
  intro j level' hj
  rw [List.getElem?_set] at hj
  split_ifs at hj with hij
  · cases hj
    exact hij ▸ hlevel
  · exact h j level' hj

omit [LinearOrder κ] in
theorem WellPlaced.append_empty {tables : TableVec κ} (h : WellPlaced tables) (n : Nat) :
    WellPlaced (tables ++ List.replicate n []) := by
  intro i level hi
  rw [List.getElem?_append] at hi
  split_ifs at hi
  · exact h i level hi
  · rw [List.getElem?_replicate] at hi
    split_ifs at hi
    cases hi
    exact LevelPlaced.nil i

/-- Loading sorts each table into its own level, under its first key. -/
theorem sortedTables_wellPlaced (tables : List (SSTable κ)) :
    WellPlaced (sortedTables tables) := by
  unfold sortedTables
  induction tables using List.reverseRecOn with
  | nil => exact WellPlaced.nil
  | append_singleton tables sst ih =>
    rw [List.foldl_append, List.foldl_cons, List.foldl_nil]
    exact (ih.append_empty _).modify fun level hl => (ih.append_empty _ _ level hl).insert rfl

/-! ## Flushes and compactions -/

theorem SSTable.createCapped_level {rows : List (κ × Value)} {level maxTableSize : Nat}
    {sst : SSTable κ} {rest : List (κ × Value)}
    (h : SSTable.createCapped rows level maxTableSize = some (sst, rest)) :
    sst.indexMeta.level = level := by
  unfold SSTable.createCapped at h
  -- the flush's result taken apart, then the index's first and last keys
  split at h
  split at h
  · cases h
    rfl
  · cases h

/-- A flush puts its table into level 0, which it makes when there are no levels. -/
theorem flushTable_wellPlaced {mem : SortedMap κ Value} {s s' : KvStore κ}
    (h : flushTable mem s = some s') (hs : WellPlaced s.tables) : WellPlaced s'.tables := by
  rcases flushTable_eq_some h with ⟨-, rfl⟩ | ⟨sst, rest, hcreate, rfl⟩
  · exact hs
  have hpages : WellPlaced (if s.tables.isEmpty then [[]] else s.tables) := by
    split
    · exact (WellPlaced.nil.append_empty 1 : WellPlaced ([] ++ List.replicate 1 []))
    · exact hs
  exact hpages.modify fun level hl =>
    (hpages 0 level hl).insert (SSTable.createCapped_level hcreate)

/-- What the store's levels depend on: the levels, the compactor's thread and its answers. -/
def levelsView (s : KvStore κ) : TableVec κ × Compactor κ × List (Resp κ) :=
  (s.tables, s.compactor, s.responses)

/-- The compaction's loop makes tables of its level, each under its first key, and only the
mapper's part of the store changes. -/
theorem makeTables_placed {level pageSize fuel : Nat} {rows : List (κ × Value)}
    {s s' : KvStore κ} {newTables newTables' : SortedMap κ (SSTable κ)}
    (h : makeTables level pageSize fuel rows s newTables = some (s', newTables'))
    (hnew : LevelPlaced level newTables) :
    LevelPlaced level newTables' ∧ levelsView s' = levelsView s := by
  fun_induction makeTables level pageSize fuel rows s newTables generalizing s' newTables' with
  | case1 =>
    cases h
    exact ⟨hnew, rfl⟩
  | case2 => cases h
  | case3 _ _ _ _ _ ih =>
    obtain ⟨⟨sst, rest⟩, hcreate, h⟩ := Option.bind_eq_some_iff.1 h
    exact ih sst rest h (hnew.insert (SSTable.createCapped_level hcreate))

theorem compactLevel0_placed {s s' : KvStore κ} {tables tables' : TableVec κ}
    (h : compactLevel0 s tables = some (s', tables')) (ht : WellPlaced tables) :
    WellPlaced tables' ∧ levelsView s' = levelsView s := by
  unfold compactLevel0 at h
  simp only [bind, Option.bind_eq_some_iff] at h
  obtain ⟨-, -, ⟨s₁, newTables⟩, hmake, h⟩ := h
  cases h
  obtain ⟨hnew, hs₁⟩ := makeTables_placed hmake (LevelPlaced.nil 1)
  refine ⟨?_, hs₁⟩
  have ht' : WellPlaced (if tables.length = 1 then tables ++ [[]] else tables) := by
    split
    · exact ht.append_empty 1
    · exact ht
  exact (ht'.set (LevelPlaced.nil 0)).set hnew

/-- The level's last table leaves it; the next level loses the tables merged with it and gains the
merge's tables. -/
theorem compactUpperLevel_placed {s s' : KvStore κ} {pages pages' : TableVec κ} {level : Nat}
    (h : compactUpperLevel s pages level = some (s', pages')) (hp : WellPlaced pages) :
    WellPlaced pages' ∧ levelsView s' = levelsView s := by
  unfold compactUpperLevel at h
  simp only [bind, Option.bind_eq_some_iff] at h
  obtain ⟨-, -, ⟨key, chosen⟩, -, ⟨s₁, newTables⟩, hmake, h⟩ := h
  cases h
  obtain ⟨hnew, hs₁⟩ := makeTables_placed hmake (LevelPlaced.nil _)
  refine ⟨?_, hs₁⟩
  have hp' : WellPlaced (if level + 1 = pages.length then pages ++ [[]] else pages) := by
    split
    · exact hp.append_empty 1
    · exact hp
  -- the chosen table leaves its level; the next level loses the tables merged and gains the new
  have hp'' := hp'.modify (i := level) fun l hl => (hp' level l hl).erase key
  exact hp''.modify fun next hnext => ((hp'' _ next hnext).foldl_erase _).append hnew

theorem compactLevel_placed {level fuel : Nat} {s s' : KvStore κ} {pages pages' : TableVec κ}
    (h : compactLevel level fuel s pages = some (s', pages')) (hp : WellPlaced pages) :
    WellPlaced pages' ∧ levelsView s' = levelsView s := by
  induction fuel generalizing s pages with
  | zero =>
    cases h
    exact ⟨hp, rfl⟩
  | succ fuel ih =>
    unfold compactLevel at h
    split_ifs at h
    · obtain ⟨⟨s₁, pages₁⟩, h₁, h⟩ := Option.bind_eq_some_iff.1 h
      obtain ⟨hp₁, hs₁⟩ := compactUpperLevel_placed h₁ hp
      obtain ⟨hp', hs'⟩ := ih h hp₁
      exact ⟨hp', hs'.trans hs₁⟩
    · cases h
      exact ⟨hp, rfl⟩

theorem compactTables_placed {s s' : KvStore κ} {tables tables' : TableVec κ}
    (h : compactTables s tables = some (s', tables')) (ht : WellPlaced tables) :
    WellPlaced tables' ∧ levelsView s' = levelsView s := by
  unfold compactTables at h
  obtain ⟨⟨s₁, tables₁⟩, h₁, h⟩ := Option.bind_eq_some_iff.1 h
  obtain ⟨ht₁, hs₁⟩ := compactLevel0_placed h₁ ht
  -- each level's compaction keeps the levels placed and the store's own as they were
  exact Machine.foldlM_invariant
    (fun st : KvStore κ × TableVec κ => WellPlaced st.2 ∧ levelsView st.1 = levelsView s)
    (fun _ _ _ hst hstep => (compactLevel_placed hstep hst.1).imp_right (·.trans hst.2)) _
    ⟨ht₁, hs₁⟩ h

/-! ## The store's calls -/

/-- The store's levels, the tables its compactor holds and those it answered are placed. -/
structure Placed (s : KvStore κ) : Prop where
  tables : WellPlaced s.tables
  loaded : ∀ t, s.compactor = .loaded t → WellPlaced t
  compacted : ∀ t, s.compactor = .compacted t → WellPlaced t
  responses : ∀ t, Resp.done t ∈ s.responses → WellPlaced t

omit [LinearOrder κ] in
theorem Placed.of_view {s s' : KvStore κ} (h : Placed s) (hview : levelsView s' = levelsView s) :
    Placed s' := by
  simp only [levelsView, Prod.mk.injEq] at hview
  obtain ⟨ht, hc, hr⟩ := hview
  exact ⟨ht ▸ h.tables, hc ▸ h.loaded, hc ▸ h.compacted, hr ▸ h.responses⟩

/-- A step of the store that keeps its levels placed. -/
def KeepsPlaced (s s' : KvStore κ) : Prop := Placed s → Placed s'

instance : Std.Refl (KeepsPlaced (κ := κ)) := ⟨fun _ h => h⟩

instance : IsTrans (KvStore κ) KeepsPlaced := ⟨fun _ _ _ h₁ h₂ h => h₂ (h₁ h)⟩

omit [LinearOrder κ] in
theorem keepsPlaced_of_view {α : Type} {prog : StoreM κ α}
    (h : Guarantees (Same levelsView) prog) : Guarantees KeepsPlaced prog :=
  h.mono fun _ _ hview hplaced => hplaced.of_view hview

omit [LinearOrder κ] in
theorem send_keepsView (req : Req) : Guarantees (Same levelsView) (send req : StoreM κ Unit) :=
  send_keeps _ (fun _ _ => rfl) req

theorem ensureMemtable_keepsPlaced : Guarantees KeepsPlaced (ensureMemtable : StoreM κ Unit) := by
  refine ensureMemtable_guarantees (fun s s₁ hflush h => ?_)
    (keepsPlaced_of_view (send_keepsView _))
  -- the flush puts a level-0 table in and leaves the compactor and its answers
  have hview : (s₁.compactor, s₁.responses) = (s.compactor, s.responses) := by
    rcases flushTable_eq_some hflush with ⟨-, rfl⟩ | ⟨sst, rest, -, rfl⟩ <;> rfl
  simp only [Prod.mk.injEq] at hview
  exact ⟨(flushTable_wellPlaced hflush h.tables : WellPlaced s₁.tables), hview.1 ▸ h.loaded,
    hview.1 ▸ h.compacted, hview.2 ▸ h.responses⟩

theorem Write.run_keepsPlaced (w : Write κ) : Guarantees KeepsPlaced w.run := by
  rw [Write.run_eq_writeMany]
  exact writeMany_guarantees (fun _ h => h.of_view rfl) (fun _ _ _ h => h.of_view rfl)
    ensureMemtable_keepsPlaced _

omit [LinearOrder κ] in
/-- `query_compactor` installs levels the compactor answered. -/
theorem queryCompactor_keepsPlaced : Guarantees KeepsPlaced (queryCompactor : StoreM κ Unit) := by
  refine Guarantees.get_bind fun s r s' h => ?_
  split at h
  · rename_i newTables rest hresp
    refine Guarantees.of_set_bind h ?_ fun hplaced => ?_
    · exact keepsPlaced_of_view (Guarantees.bind (Guarantees.modify fun s => by split <;> rfl)
        fun _ => Guarantees.tryCatch (send_keepsView _) fun _ => Guarantees.abort)
    · refine ⟨hplaced.responses newTables (hresp ▸ List.mem_cons_self), hplaced.loaded,
        hplaced.compacted, fun t ht => hplaced.responses t (hresp ▸ List.mem_cons_of_mem _ ht)⟩
  · exact Guarantees.of_set_bind h (Guarantees.throw _) fun hplaced =>
      ⟨hplaced.tables, hplaced.loaded, hplaced.compacted, fun t ht =>
        hplaced.responses t (by rename_i hresp; exact hresp ▸ List.mem_cons_of_mem _ ht)⟩
  · exact Guarantees.pure _ s r s' h

theorem get_keepsPlaced (key : κ) : Guarantees KeepsPlaced (get key) :=
  Guarantees.bind queryCompactor_keepsPlaced fun _ =>
    Guarantees.get_bind fun s r s' h => Guarantees.pure _ s r s' h

theorem range_keepsPlaced (lo hi : κ) : Guarantees KeepsPlaced (range lo hi) :=
  Guarantees.bind queryCompactor_keepsPlaced fun _ =>
    Guarantees.get_bind fun s r s' h => Guarantees.pure _ s r s' h

omit [LinearOrder κ] in
theorem batch_keepsPlaced (config : WriteBatchConfig) :
    Guarantees KeepsPlaced (batch config : StoreM κ (WriteBatch κ)) :=
  Guarantees.bind (Guarantees.get_bind fun _ _ _ h =>
    Guarantees.of_set_bind h (Guarantees.pure _) fun hs => hs.of_view rfl) fun _ =>
      Guarantees.pure _

theorem WriteBatch.writeMany_keepsPlaced (b : WriteBatch κ)
    (records : List (κ × Option (List UInt8))) :
    Guarantees KeepsPlaced (b.writeMany records) := by
  unfold WriteBatch.writeMany
  split
  · exact Guarantees.bind (Guarantees.modify fun _ hs => hs.of_view rfl) fun _ => Guarantees.pure _
  · exact Guarantees.bind (Guarantees.pure _) fun _ => Guarantees.pure _

theorem commitBatch_keepsPlaced (b : WriteBatch κ) : Guarantees KeepsPlaced (commitBatch b) :=
  Guarantees.bind (Guarantees.modify fun _ hs => hs.of_view rfl) fun _ => ensureMemtable_keepsPlaced

/-! ## The compactor's thread -/

theorem compactorRecv_placed {s s' : KvStore κ} (h : compactorRecv s = some s') (hs : Placed s) :
    Placed s' := by
  unfold compactorRecv at h
  split at h
  · -- `Start`: the active set sorted into levels, or `Failed` answered
    split at h
    · cases h
      refine ⟨hs.tables, fun t ht => ?_, fun t ht => (by cases ht), hs.responses⟩
      cases ht
      exact sortedTables_wellPlaced _
    · cases h
      refine ⟨hs.tables, hs.loaded, hs.compacted, fun t ht => ?_⟩
      rcases List.mem_append.1 ht with ht | ht
      · exact hs.responses t ht
      · simp at ht
  · cases h
    exact hs.of_view rfl
  · cases h

theorem compactorMerge_placed {s s' : KvStore κ} (h : compactorMerge s = some s') (hs : Placed s) :
    Placed s' := by
  unfold compactorMerge at h
  split at h
  · rename_i tables hc
    split at h
    · rename_i s₁ tables' hcompact
      cases h
      obtain ⟨ht, hview⟩ := compactTables_placed hcompact (hs.loaded tables hc)
      have hs₁ := hs.of_view hview
      exact ⟨hs₁.tables, fun t ht => (by cases ht), fun t ht' => (by cases ht'; exact ht),
        hs₁.responses⟩
    · cases h
      exact ⟨hs.tables, fun t ht => (by cases ht), fun t ht => (by cases ht), hs.responses⟩
  · cases h

omit [LinearOrder κ] in
theorem compactorRotate_placed {s s' : KvStore κ} (h : compactorRotate s = some s')
    (hs : Placed s) : Placed s' := by
  unfold compactorRotate at h
  split at h
  · rename_i tables hc
    cases h
    refine ⟨hs.tables, fun t ht => (by cases ht), fun t ht => (by cases ht), fun t ht => ?_⟩
    rcases List.mem_append.1 ht with ht | ht
    · exact hs.responses t ht
    · rw [List.mem_singleton, Resp.done.injEq] at ht
      exact ht ▸ hs.compacted tables hc
  · cases h

theorem loadTables_wellPlaced {config : Config} {root : Root κ} {mappings : List (Nat × Kind)}
    {tables : TableVec κ} (h : loadTables config root = .ok (mappings, tables)) :
    WellPlaced tables := by
  unfold loadTables at h
  split at h
  · cases h
    exact WellPlaced.nil
  · dsimp only at h
    split at h
    · cases h
      exact sortedTables_wellPlaced _
    · cases h

theorem openStore_placed {config : Config} {root : Root κ} {now : Nat} {s : KvStore κ}
    (h : openStore config root now = .ok s) : Placed s := by
  obtain ⟨values, mappings, tables, -, hload, rfl⟩ := openStore_eq_ok h
  exact ⟨loadTables_wellPlaced hload, fun t ht => (by cases ht), fun t ht => (by cases ht),
    fun t ht => (by cases ht)⟩

/-! ## Every reachable state -/

/-- The states a store on a root and its compactor's thread reach: the store opened, then its calls
and the thread's steps in any interleaving. -/
inductive Reachable (config : Config) : KvStore κ → Prop
  | open {root : Root κ} {now : Nat} {s : KvStore κ} :
      openStore config root now = .ok s → Reachable config s
  | write {s s' : KvStore κ} {r : Except Error Unit} (w : Write κ) :
      Reachable config s → w.run.run.run s = some (r, s') → Reachable config s'
  | get {s s' : KvStore κ} {r : Except Error (Option (List UInt8))} (key : κ) :
      Reachable config s → (get key).run.run s = some (r, s') → Reachable config s'
  | range {s s' : KvStore κ} {r : Except Error (List (κ × List UInt8))} (lo hi : κ) :
      Reachable config s → (range lo hi).run.run s = some (r, s') → Reachable config s'
  | batch {s s' : KvStore κ} {r : Except Error (WriteBatch κ)} (batchConfig : WriteBatchConfig) :
      Reachable config s → (batch batchConfig).run.run s = some (r, s') → Reachable config s'
  | batchWrite {s s' : KvStore κ} {r : Except Error (WriteBatch κ)} (b : WriteBatch κ)
      (records : List (κ × Option (List UInt8))) :
      Reachable config s → (b.writeMany records).run.run s = some (r, s') → Reachable config s'
  | commit {s s' : KvStore κ} {r : Except Error Unit} (b : WriteBatch κ) :
      Reachable config s → (commitBatch b).run.run s = some (r, s') → Reachable config s'
  | recv {s s' : KvStore κ} :
      Reachable config s → compactorRecv s = some s' → Reachable config s'
  | merge {s s' : KvStore κ} :
      Reachable config s → compactorMerge s = some s' → Reachable config s'
  | rotate {s s' : KvStore κ} :
      Reachable config s → compactorRotate s = some s' → Reachable config s'

/-- In every state the store and its compactor reach, every table of level `i` sits in level `i`'s
map under its first key, and so does every table the compactor holds or has answered. -/
theorem Reachable.placed {config : Config} {s : KvStore κ} (h : Reachable config s) :
    Placed s := by
  induction h with
  | «open» hopen => exact openStore_placed hopen
  | write w _ hrun ih => exact w.run_keepsPlaced _ _ _ hrun ih
  | get key _ hrun ih => exact get_keepsPlaced key _ _ _ hrun ih
  | range lo hi _ hrun ih => exact range_keepsPlaced lo hi _ _ _ hrun ih
  | batch batchConfig _ hrun ih => exact batch_keepsPlaced batchConfig _ _ _ hrun ih
  | batchWrite b records _ hrun ih => exact b.writeMany_keepsPlaced records _ _ _ hrun ih
  | commit b _ hrun ih => exact commitBatch_keepsPlaced b _ _ _ hrun ih
  | recv _ hstep ih => exact compactorRecv_placed hstep ih
  | merge _ hstep ih => exact compactorMerge_placed hstep ih
  | rotate _ hstep ih => exact compactorRotate_placed hstep ih

/-! ## A table displaced -/

/-- The store after `collisionWrites` on a fresh root, flushing on every write. -/
def afterCollision : Option (KvStore Nat) :=
  (openStore flushEveryWrite Root.empty 0).toOption.bind fun s =>
    ((collisionWrites.forM Write.run).run.run s).map (·.2)

/-- `put_many` of keys 1 and 2 and then `put` of key 1 make two level-0 tables, both active tables
of the mapper with their files, neither taken by a compaction; the second starts at key 1 as the
first does, and level 0 holds only it. -/
theorem flush_displaces_level0_table :
    afterCollision.map (·.mappings) = some [(0, .active), (1, .active)] ∧
      afterCollision.map (fun s => s.files.map fun e => (e.1, e.2.rows.map (·.1))) =
        some [(0, [1, 2]), (1, [1])] ∧
      afterCollision.map (fun s => s.tables.map fun level => level.map fun e =>
        (e.1, e.2.rows.map (·.1))) = some [[(1, [1])]] := by
  decide +kernel

end Kvstore

end Morgan
