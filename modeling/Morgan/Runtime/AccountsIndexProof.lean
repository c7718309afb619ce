import Mathlib
import Morgan.Runtime.AccountsDb

/-!
# What the purge of the accounts index hides

`AccountsIndex::insert` drops, with the key's version of its own fork, every version of the key
at a fork below the last root (`is_purged`).  Set beside a reference index whose `insert` only
replaces the version of its own fork (`insertRetaining`), the index keeps of each key the
reference's versions from some fork on, no later than the last root (`PurgedOf`), after any
sequence of inserts and roots (`PurgedOf.runOps`).

`get` picks the version of the greatest visible fork (`latest_spec`), so dropping versions below
a fork only changes its answer when the reference's answer lies below that fork: a query from a
live fork reads the same version from both indexes, except a rooted version below the last root,
which the index may have dropped (`load_runOps`).  It does drop it, when the key is written on one
live fork and read from a sibling (`purge_hides_rooted_version`).
-/

namespace Morgan

namespace AccountsDb

/-! ## The loop of `get` -/

section Latest

variable (visible : Fork → Bool)

/-- One iteration of the loop of `get`. -/
def latestStep (acc : Fork × Option (Account × Fork)) (e : Fork × Account) :
    Fork × Option (Account × Fork) :=
  if e.1 ≥ acc.1 && visible e.1 then (e.1, some (e.2, e.1)) else acc

theorem latest_eq_foldl (vs : List (Fork × Account)) :
    latest visible vs = vs.reverse.foldl (latestStep visible) (0, none) := rfl

theorem le_latestStep (acc : Fork × Option (Account × Fork)) (e : Fork × Account) :
    acc.1 ≤ (latestStep visible acc e).1 ∧
      (visible e.1 = true → e.1 ≤ (latestStep visible acc e).1) := by
  unfold latestStep
  by_cases hc : (e.1 ≥ acc.1 && visible e.1) = true
  · rw [if_pos hc]
    simp only [Bool.and_eq_true, decide_eq_true_eq] at hc
    exact ⟨hc.1, fun _ => UInt64.le_refl _⟩
  · rw [if_neg hc]
    refine ⟨UInt64.le_refl _, fun hv => ?_⟩
    simp only [hv, Bool.and_true, decide_eq_true_eq] at hc
    exact UInt64.le_of_lt (UInt64.not_le.1 hc)

/-- The fork the loop holds only grows, and ends above every visible fork it has passed. -/
theorem le_foldl_latestStep (l : List (Fork × Account)) (acc : Fork × Option (Account × Fork)) :
    acc.1 ≤ (l.foldl (latestStep visible) acc).1 ∧
      ∀ e ∈ l, visible e.1 = true → e.1 ≤ (l.foldl (latestStep visible) acc).1 := by
  induction l generalizing acc with
  | nil => exact ⟨UInt64.le_refl _, fun _ h => nomatch h⟩
  | cons e l ih =>
    obtain ⟨hacc, he⟩ := le_latestStep visible acc e
    obtain ⟨hstep, hrest⟩ := ih (latestStep visible acc e)
    refine ⟨UInt64.le_trans hacc hstep, ?_⟩
    rintro x hx hv
    rcases List.mem_cons.1 hx with rfl | hx
    · exact UInt64.le_trans (he hv) hstep
    · exact hrest x hx hv

/-- What the loop holds: nothing yet, at fork 0, or a visible version of the fork it holds. -/
def LatestInv (visible : Fork → Bool) (vs : List (Fork × Account))
    (acc : Fork × Option (Account × Fork)) : Prop :=
  (acc.2 = none ∧ acc.1 = 0) ∨
    ∃ a, acc.2 = some (a, acc.1) ∧ (acc.1, a) ∈ vs ∧ visible acc.1

theorem latestInv_foldl {vs : List (Fork × Account)} :
    ∀ (l : List (Fork × Account)) (acc : Fork × Option (Account × Fork)),
      (∀ e ∈ l, e ∈ vs) → LatestInv visible vs acc →
        LatestInv visible vs (l.foldl (latestStep visible) acc)
  | [], _, _, h => h
  | e :: l, acc, hl, h => by
    refine latestInv_foldl l _ (fun x hx => hl x (List.mem_cons_of_mem _ hx)) ?_
    unfold latestStep
    by_cases hc : (e.1 ≥ acc.1 && visible e.1) = true
    · rw [if_pos hc]
      simp only [Bool.and_eq_true] at hc
      exact .inr ⟨e.2, rfl, hl e List.mem_cons_self, hc.2⟩
    · rwa [if_neg hc]

/-- A loop that ends with nothing passed no visible version. -/
theorem foldl_latestStep_eq_none :
    ∀ (l : List (Fork × Account)) (acc : Fork × Option (Account × Fork)),
      (acc.2 = none → acc.1 = 0) → (l.foldl (latestStep visible) acc).2 = none →
        acc.2 = none ∧ ∀ e ∈ l, visible e.1 = false
  | [], _, _, h => ⟨h, fun _ h => nomatch h⟩
  | e :: l, acc, hacc, h => by
    have hstep : (latestStep visible acc e).2 = none → (latestStep visible acc e).1 = 0 := by
      unfold latestStep
      split_ifs
      · intro h; cases h
      · exact hacc
    obtain ⟨hnone, hrest⟩ := foldl_latestStep_eq_none l _ hstep h
    unfold latestStep at hnone
    by_cases hc : (e.1 ≥ acc.1 && visible e.1) = true
    · rw [if_pos hc] at hnone
      cases hnone
    · rw [if_neg hc] at hnone
      -- nothing held yet means fork 0, which every fork is at least
      have he : visible e.1 = false := by
        simpa [hacc hnone, UInt64.zero_le] using hc
      refine ⟨hnone, fun x hx => ?_⟩
      rcases List.mem_cons.1 hx with rfl | hx
      · exact he
      · exact hrest x hx

/-- `get` finds nothing exactly when no version is visible, and otherwise a visible version whose
fork is the greatest visible one. -/
theorem latest_spec (vs : List (Fork × Account)) :
    ((latest visible vs).2 = none ∧ ∀ e ∈ vs, visible e.1 = false) ∨
      ∃ a f, (latest visible vs).2 = some (a, f) ∧ (f, a) ∈ vs ∧ visible f = true ∧
        ∀ e ∈ vs, visible e.1 = true → e.1 ≤ f := by
  rw [latest_eq_foldl]
  have hinv := latestInv_foldl visible vs.reverse (0, none)
    (fun e he => List.mem_reverse.1 he) (.inl ⟨rfl, rfl⟩)
  have hle := (le_foldl_latestStep visible vs.reverse (0, none)).2
  rcases hinv with ⟨hnone, -⟩ | ⟨a, hsome, hmem, hvis⟩
  · left
    obtain ⟨-, hall⟩ := foldl_latestStep_eq_none visible vs.reverse (0, none) (fun _ => rfl) hnone
    exact ⟨hnone, fun e he => hall e (List.mem_reverse.2 he)⟩
  · right
    exact ⟨a, _, hsome, hmem, hvis, fun e he hv => hle e (List.mem_reverse.2 he) hv⟩

/-- Dropping the versions below some fork leaves the answer of `get` alone when that answer is not
below it, in a list with one version per fork. -/
theorem latest_filter_of_le {vs : List (Fork × Account)} (hnd : (vs.map (·.1)).Nodup)
    {bound : Fork} {a : Account} {f : Fork} (h : (latest visible vs).2 = some (a, f))
    (hf : bound ≤ f) :
    (latest visible (vs.filter fun v => decide (bound ≤ v.1))).2 = some (a, f) := by
  rcases latest_spec visible vs with
    ⟨hnone, -⟩ | ⟨a₀, f₀, hsome, hmem, hvis, hmax⟩
  · rw [hnone] at h
    cases h
  rw [hsome] at h
  obtain ⟨rfl, rfl⟩ := Prod.mk.inj (Option.some.inj h)
  have hkept : (f₀, a₀) ∈ vs.filter fun v => decide (bound ≤ v.1) :=
    List.mem_filter.2 ⟨hmem, decide_eq_true hf⟩
  rcases latest_spec visible (vs.filter fun v => decide (bound ≤ v.1)) with
    ⟨-, hall⟩ | ⟨a₁, f₁, hsome₁, hmem₁, hvis₁, hmax₁⟩
  · rw [hall _ hkept] at hvis
    cases hvis
  -- both answers are the greatest visible fork, and a fork has one version
  have hmem₁' : (f₁, a₁) ∈ vs := (List.mem_filter.1 hmem₁).1
  have hf : f₁ = f₀ := UInt64.le_antisymm (hmax _ hmem₁' hvis₁) (hmax₁ _ hkept hvis)
  subst hf
  have ha : a₁ = a₀ := by
    have := List.inj_on_of_nodup_map hnd hmem₁' hmem rfl
    exact (Prod.mk.inj this).2
  rw [hsome₁, ha]

theorem latest_filter_of_none {vs : List (Fork × Account)} (h : (latest visible vs).2 = none)
    (p : Fork × Account → Bool) : (latest visible (vs.filter p)).2 = none := by
  rcases latest_spec visible vs with ⟨-, hall⟩ | ⟨a, f, hsome, -, -, -⟩
  · rcases latest_spec visible (vs.filter p) with
      ⟨hnone, -⟩ | ⟨a, f, -, hmem, hvis, -⟩
    · exact hnone
    · rw [hall _ (List.mem_filter.1 hmem).1] at hvis
      cases hvis
  · rw [hsome] at h
    cases h

end Latest

/-! ## The reference index -/

/-- The reference of the purge: an index whose `insert` replaces the version of its own fork and
keeps every other. -/
def insertRetaining (db : AccountsDb) (fork : Fork) (key : Pubkey) (account : Account) :
    AccountsDb :=
  let vs := (db.versions key).filter (·.1 != fork) ++ [(fork, account)]
  { db with
    accountMaps := db.accountMaps.set key vs
    keys_nodup := AssocMap.nodup_keys_set db.keys_nodup key vs }

/-- A call on the index: `insert(fork, key, info)` or `add_root(fork)`. -/
inductive IndexOp where
  | insert (fork : Fork) (key : Pubkey) (account : Account)
  | addRoot (fork : Fork)
  deriving DecidableEq, Repr

/-- One call on the index; `none` is the panic of `add_root`. -/
def applyOp (db : AccountsDb) : IndexOp → Option AccountsDb
  | .insert fork key account => some (db.insert fork key account)
  | .addRoot fork => db.addRoot fork

/-- One call on the reference index. -/
def applyOpRetaining (db : AccountsDb) : IndexOp → Option AccountsDb
  | .insert fork key account => some (db.insertRetaining fork key account)
  | .addRoot fork => db.addRoot fork

/-- The calls in order. -/
def runOps (db : AccountsDb) (ops : List IndexOp) : Option AccountsDb := ops.foldlM applyOp db

/-- The calls in order, on the reference index. -/
def runOpsRetaining (db : AccountsDb) (ops : List IndexOp) : Option AccountsDb :=
  ops.foldlM applyOpRetaining db

theorem versions_set_self (db : AccountsDb) (key : Pubkey) (vs : List (Fork × Account))
    (h : (db.accountMaps.set key vs).keys.Nodup) :
    versions { db with accountMaps := db.accountMaps.set key vs, keys_nodup := h } key = vs := by
  simp [versions]

theorem versions_set_of_ne (db : AccountsDb) {key key' : Pubkey} (hne : key' ≠ key)
    (vs : List (Fork × Account)) (h : (db.accountMaps.set key vs).keys.Nodup) :
    versions { db with accountMaps := db.accountMaps.set key vs, keys_nodup := h } key' =
      db.versions key' := by
  simp [versions, AssocMap.get?_set_of_ne _ hne]

/-! ## The index against the reference -/

/-- The index holds of each key the reference's versions from some fork on, no later than the last
root; the reference has one version per fork. -/
structure PurgedOf (db ref : AccountsDb) : Prop where
  roots : db.roots = ref.roots
  lastRoot : db.lastRoot = ref.lastRoot
  versions : ∀ key, ∃ bound ≤ db.lastRoot,
    db.versions key = (ref.versions key).filter fun v => decide (bound ≤ v.1)
  forks_nodup : ∀ key, ((ref.versions key).map (·.1)).Nodup

theorem purgedOf_empty : PurgedOf empty empty :=
  ⟨rfl, rfl, fun _ => ⟨0, UInt64.le_refl _, by simp [versions, empty, AssocMap.get?]⟩,
    fun _ => by simp [versions, empty, AssocMap.get?]⟩

theorem not_isPurged (db : AccountsDb) (f : Fork) :
    (!db.isPurged f) = decide (db.lastRoot ≤ f) := by
  by_cases hf : db.lastRoot ≤ f
  · simp [isPurged, hf, UInt64.not_lt.2 hf]
  · simp [isPurged, hf, UInt64.not_le.1 hf]

/-- The versions `insert` leaves: the reference's, from the last root on. -/
theorem versions_insert_of_purgedOf {db ref : AccountsDb} (h : PurgedOf db ref) (fork : Fork)
    (key : Pubkey) (account : Account) :
    (db.insert fork key account).versions key =
      ((ref.insertRetaining fork key account).versions key).filter
        fun v => decide (db.lastRoot ≤ v.1) := by
  obtain ⟨bound, hbound, hvs⟩ := h.versions key
  simp only [AccountsDb.insert, insertRetaining, versions_set_self, hvs, List.filter_append,
    List.filter_filter, not_isPurged]
  congr 1
  apply List.filter_congr
  intro v _
  -- a version from the last root on is from the bound on
  by_cases hv : db.lastRoot ≤ v.1
  · simp [hv, UInt64.le_trans hbound hv]
  · simp [hv]

theorem PurgedOf.insert {db ref : AccountsDb} (h : PurgedOf db ref) (fork : Fork) (key : Pubkey)
    (account : Account) :
    PurgedOf (db.insert fork key account) (ref.insertRetaining fork key account) := by
  refine ⟨h.roots, h.lastRoot, fun key' => ?_, fun key' => ?_⟩
  · by_cases hk : key' = key
    · subst hk
      exact ⟨db.lastRoot, UInt64.le_refl _, versions_insert_of_purgedOf h fork key' account⟩
    · obtain ⟨bound, hbound, hvs⟩ := h.versions key'
      refine ⟨bound, hbound, ?_⟩
      simp only [AccountsDb.insert, insertRetaining, versions_set_of_ne _ hk]
      exact hvs
  · by_cases hk : key' = key
    · subst hk
      simp only [insertRetaining, versions_set_self, List.map_append, List.map_cons, List.map_nil]
      -- the fork's old version is gone, so the fork appears once
      refine List.nodup_append.2 ⟨(h.forks_nodup key').sublist (List.filter_sublist.map _),
        List.nodup_singleton _, ?_⟩
      rintro x hx y hy rfl
      obtain ⟨v, hv, rfl⟩ := List.mem_map.1 hx
      have hne := (List.mem_filter.1 hv).2
      simp [List.mem_singleton.1 hy] at hne
    · simp only [insertRetaining, versions_set_of_ne _ hk]
      exact h.forks_nodup key'

theorem PurgedOf.addRoot {db ref db₁ : AccountsDb} (h : PurgedOf db ref) {fork : Fork}
    (hr : db.addRoot fork = some db₁) :
    ∃ ref₁, ref.addRoot fork = some ref₁ ∧ PurgedOf db₁ ref₁ := by
  unfold AccountsDb.addRoot at hr ⊢
  rw [← h.lastRoot, ← h.roots]
  split_ifs at hr ⊢ with hc
  cases hr
  refine ⟨_, rfl, ⟨rfl, rfl, fun key => ?_, h.forks_nodup⟩⟩
  obtain ⟨bound, hbound, hvs⟩ := h.versions key
  -- the last root only grows
  have hgrow : db.lastRoot ≤ fork := by
    rcases hc with ⟨h0, rfl⟩ | hlt
    · exact h0 ▸ UInt64.le_refl _
    · exact UInt64.le_of_lt hlt
  exact ⟨bound, UInt64.le_trans hbound hgrow, hvs⟩

theorem PurgedOf.applyOp {db ref db₁ : AccountsDb} (h : PurgedOf db ref) {op : IndexOp}
    (hr : db.applyOp op = some db₁) :
    ∃ ref₁, ref.applyOpRetaining op = some ref₁ ∧ PurgedOf db₁ ref₁ := by
  cases op with
  | insert fork key account =>
    cases hr
    exact ⟨_, rfl, h.insert fork key account⟩
  | addRoot fork => exact h.addRoot hr

/-- After any sequence of calls that does not panic, the reference runs the same calls without a
panic, and the index is the reference purged. -/
theorem PurgedOf.runOps : ∀ {ops : List IndexOp} {db ref db₁ : AccountsDb}, PurgedOf db ref →
    db.runOps ops = some db₁ →
      ∃ ref₁, ref.runOpsRetaining ops = some ref₁ ∧ PurgedOf db₁ ref₁
  | [], _, _, _, h, hr => by
    cases hr
    exact ⟨_, rfl, h⟩
  | op :: ops, db, ref, db₁, h, hr => by
    simp only [AccountsDb.runOps, List.foldlM_cons, Option.bind_eq_bind,
      Option.bind_eq_some_iff] at hr
    obtain ⟨db₂, h₂, hr⟩ := hr
    obtain ⟨ref₂, hr₂, h₂'⟩ := h.applyOp h₂
    obtain ⟨ref₁, hr₁, h₁⟩ := PurgedOf.runOps h₂' hr
    refine ⟨ref₁, ?_, h₁⟩
    simp only [runOpsRetaining, List.foldlM_cons, Option.bind_eq_bind, hr₂, Option.bind_some]
    exact hr₁

/-- A query whose ancestors are at or above the last root reads from the index what it reads from
the reference, or the reference's answer is a rooted version below the last root. -/
theorem PurgedOf.load {db ref : AccountsDb} (h : PurgedOf db ref) (ancestors : Ancestors)
    (hanc : ∀ g ∈ ancestors, ref.lastRoot ≤ g.1) (key : Pubkey) :
    db.load ancestors key = ref.load ancestors key ∨
      ∃ a f, ref.load ancestors key = some (a, f) ∧ f < ref.lastRoot ∧
        ref.isRoot f = true := by
  obtain ⟨bound, hbound, hvs⟩ := h.versions key
  have hvis : db.visible ancestors = ref.visible ancestors := by
    funext f
    simp [visible, isRoot, h.roots]
  unfold AccountsDb.load
  rw [hvs, hvis]
  cases hr : (latest (ref.visible ancestors) (ref.versions key)).2 with
  | none => exact .inl (latest_filter_of_none _ hr _)
  | some r =>
    obtain ⟨a, f⟩ := r
    by_cases hf : bound ≤ f
    · exact .inl (latest_filter_of_le _ (h.forks_nodup key) hr hf)
    · -- below the bound, so below the last root, and visible only as a root
      have hlt : f < ref.lastRoot := h.lastRoot ▸
        UInt64.lt_of_lt_of_le (UInt64.not_le.1 hf) hbound
      refine .inr ⟨a, f, rfl, hlt, ?_⟩
      rcases latest_spec (ref.visible ancestors) (ref.versions key) with
        ⟨hnone, -⟩ | ⟨a₀, f₀, hsome, -, hv, -⟩
      · rw [hnone] at hr
        cases hr
      rw [hsome] at hr
      obtain ⟨-, rfl⟩ := Prod.mk.inj (Option.some.inj hr)
      unfold visible at hv
      rcases Bool.or_eq_true_iff.1 hv with hanc' | hroot
      · -- an ancestor is at or above the last root
        obtain ⟨g, hg, hfg⟩ := List.lookup_isSome_iff.1 hanc'
        have hle := hanc g hg
        rw [← beq_iff_eq.1 hfg] at hle
        exact absurd hle (UInt64.not_le.2 hlt)
      · exact hroot

/-- Inserts and strictly increasing roots, from an empty index: every query from forks at or above
the last root reads what the reference index reads, except a rooted version below the last root. -/
theorem load_runOps {ops : List IndexOp} {db : AccountsDb} (hr : empty.runOps ops = some db) :
    ∃ ref, empty.runOpsRetaining ops = some ref ∧ ∀ ancestors : Ancestors,
      (∀ g ∈ ancestors, db.lastRoot ≤ g.1) → ∀ key,
        db.load ancestors key = ref.load ancestors key ∨
          ∃ a f, ref.load ancestors key = some (a, f) ∧ f < db.lastRoot ∧
            ref.isRoot f = true := by
  obtain ⟨ref, hrref, h⟩ := purgedOf_empty.runOps hr
  refine ⟨ref, hrref, fun ancestors hanc key => ?_⟩
  rw [h.lastRoot] at hanc ⊢
  exact h.load ancestors hanc key

/-! ## The purge hides a rooted version -/

/-- A key written at fork 1, rooted with 1 and then 2, and written again at fork 3. -/
def purgeOps : List IndexOp :=
  [.insert 1 ⟨Vector.replicate 32 5⟩ ⟨1, 0, [], default, false⟩, .addRoot 1, .addRoot 2,
   .insert 3 ⟨Vector.replicate 32 5⟩ ⟨2, 0, [], default, false⟩]

/-- The bank of fork 4, a child of root 2, reads the key: the index has dropped the version of root
1 and finds nothing, while the reference index finds that rooted version. -/
theorem purge_hides_rooted_version :
    (empty.runOps purgeOps).map (·.load [(4, 0), (2, 1)] ⟨Vector.replicate 32 5⟩) =
        some none ∧
      (empty.runOpsRetaining purgeOps).map (·.load [(4, 0), (2, 1)] ⟨Vector.replicate 32 5⟩) =
        some (some (⟨1, 0, [], default, false⟩, 1)) := by
  decide

end AccountsDb

end Morgan
