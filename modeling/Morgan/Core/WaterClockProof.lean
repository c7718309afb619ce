import Mathlib
import Morgan.Core.WaterClock

/-!
# Every interleaving of the generator's calls replays

`hash` moves hashes from those left of the tick to those since the last entry; `record` ends an
entry and takes one hash; `tick` takes one, and when it ends the tick, emits the hashes since the
last entry and restores the tick's count.

From `Poh::new(h, k)`, every call keeps `Poh.Inv`: at least one hash left and none past the tick's
count, the running hash `num_hashes` hashes after the last entry's, every entry emitted with a hash
or more, and all of them replayed by the tests' `verify` from `h`.  With a count of fewer than
`u64::MAX` hashes, a tick ends exactly when the hashes since the last tick reach it, so the entries
of each tick add up to its count.  A count of `u64::MAX` is unbounded: every `tick` ends one,
whatever the hashes since the last (`poh_tick_entry_short_of_max_tick`).
-/

namespace Morgan

/-! ## The calls -/

theorem rehash_zero (h : Hash) : rehash 0 h = h := rfl

theorem rehash_succ (n : Nat) (h : Hash) : rehash (n + 1) h = hash (rehash n h).bytes.toList :=
  Function.iterate_succ_apply' _ n h

theorem rehash_rehash (m n : Nat) (h : Hash) : rehash n (rehash m h) = rehash (m + n) h := by
  rw [Nat.add_comm]
  exact (Function.iterate_add_apply _ n m h).symm

namespace Poh

theorem new_none (h : Hash) : Poh.new h none = some ⟨h, 0, 2 ^ 64 - 1, 2 ^ 64 - 1⟩ := by
  simp [Poh.new]

theorem new_eq (h : Hash) {k : Option Nat} (hk : 1 < k.getD (2 ^ 64 - 1)) :
    Poh.new h k = some ⟨h, 0, k.getD (2 ^ 64 - 1), k.getD (2 ^ 64 - 1)⟩ := by
  unfold Poh.new
  rw [if_pos hk]

/-- `Poh::hash` with a hash left: the hashes it takes, at most one short of the tick. -/
theorem hashN_eq (poh : Poh) (m : Nat) (hpos : 1 ≤ poh.remainingHashes) :
    poh.hashN m = some ({ poh with
      hash := rehash (min (poh.remainingHashes - 1) m) poh.hash
      numHashes := poh.numHashes + min (poh.remainingHashes - 1) m
      remainingHashes := poh.remainingHashes - min (poh.remainingHashes - 1) m },
      poh.remainingHashes - min (poh.remainingHashes - 1) m == 1) := by
  simp only [hashN]
  rw [if_pos (by omega)]

/-- Fewer hashes than are left before the tick are all taken. -/
theorem hashN_of_lt (poh : Poh) {k : Nat} (hk : k < poh.remainingHashes) :
    poh.hashN k = some ({ poh with
      hash := rehash k poh.hash
      numHashes := poh.numHashes + k
      remainingHashes := poh.remainingHashes - k }, poh.remainingHashes - k == 1) := by
  have hmin : min (poh.remainingHashes - 1) k = k := by omega
  rw [hashN_eq poh k (by omega), hmin]

/-- An unbounded tick always ends. -/
theorem tick_isSome_of_unbounded {poh : Poh} (h : poh.hashesPerTick = 2 ^ 64 - 1) :
    poh.tick.2.isSome := by
  simp [tick, h]

theorem record_eq_none_iff (poh : Poh) (mixin : Hash) :
    (poh.record mixin).2 = none ↔ poh.remainingHashes = 1 := by
  unfold record
  split <;> simp_all

end Poh

/-! ## The entries emitted -/

/-- The hash the entries end on, from `h`: where the next entry's hashes start. -/
def lastHash : Hash → List (PohEntry × Option Hash) → Hash
  | h, [] => h
  | _, e :: es => lastHash e.1.hash es

@[simp] theorem lastHash_nil (h : Hash) : lastHash h [] = h := rfl

@[simp] theorem lastHash_cons (h : Hash) (e : PohEntry × Option Hash)
    (es : List (PohEntry × Option Hash)) : lastHash h (e :: es) = lastHash e.1.hash es := rfl

@[simp] theorem lastHash_append (h : Hash) (es es' : List (PohEntry × Option Hash)) :
    lastHash h (es ++ es') = lastHash (lastHash h es) es' := by
  induction es generalizing h with
  | nil => rfl
  | cons e es ih => exact ih e.1.hash

/-- The hashes of the records emitted since the last tick entry. -/
def sinceTick (entries : List (PohEntry × Option Hash)) : Nat :=
  ((entries.reverse.takeWhile fun p => p.2.isSome).map (·.1.numHashes)).sum

@[simp] theorem sinceTick_append_record (entries : List (PohEntry × Option Hash)) (e : PohEntry)
    (mixin : Hash) : sinceTick (entries ++ [(e, some mixin)]) = e.numHashes + sinceTick entries := by
  simp [sinceTick]

@[simp] theorem sinceTick_append_tick (entries : List (PohEntry × Option Hash)) (e : PohEntry) :
    sinceTick (entries ++ [(e, none)]) = 0 := by
  simp [sinceTick]

/-- The tests' `verify` of entries after entries it accepts: those from the hash they end on. -/
theorem verify_append {h : Hash} {es : List (PohEntry × Option Hash)}
    (hes : Poh.verify h es = some true) (es' : List (PohEntry × Option Hash)) :
    Poh.verify h (es ++ es') = Poh.verify (lastHash h es) es' := by
  induction es generalizing h with
  | nil => rfl
  | cons x es ih =>
    obtain ⟨e, mixin⟩ := x
    simp only [List.cons_append, Poh.verify_cons] at hes ⊢
    split_ifs at hes ⊢ with h0 hcur
    · cases hes
    · exact ih hes

theorem verify_record (h mixin : Hash) (n : Nat) :
    Poh.verify h [(⟨n + 1, hashv [(rehash n h).bytes.toList, mixin.bytes.toList]⟩, some mixin)] =
      some true := by
  simp [Poh.verify_cons, Poh.verify_nil]

theorem verify_tick (h : Hash) (n : Nat) :
    Poh.verify h [(⟨n + 1, hash (rehash n h).bytes.toList⟩, none)] = some true := by
  simp [Poh.verify_cons, Poh.verify_nil]

/-- Where a tick entry stands among entries with one more at the end: it is that one, or it was
there before. -/
theorem tick_mem_append {entries pre post : List (PohEntry × Option Hash)}
    {x : PohEntry × Option Hash} {e : PohEntry} (h : entries ++ [x] = pre ++ (e, none) :: post) :
    (pre = entries ∧ x = (e, none)) ∨ ∃ post', entries = pre ++ (e, none) :: post' := by
  rcases List.eq_nil_or_concat' post with rfl | ⟨post', y, rfl⟩
  · obtain ⟨hpre, hx⟩ := List.append_inj' h rfl
    exact .inl ⟨hpre.symm, List.singleton_inj.1 hx⟩
  · rw [← List.cons_append, ← List.append_assoc] at h
    exact .inr ⟨post', (List.append_inj' h rfl).1⟩

/-! ## What every call keeps -/

/-- What every call keeps, from the hash `h` with a tick of `k` hashes: the generator and the
entries it has emitted. -/
structure Poh.Inv (h : Hash) (k : Nat) (poh : Poh) (entries : List (PohEntry × Option Hash)) :
    Prop where
  hashesPerTick_eq : poh.hashesPerTick = k
  remaining_pos : 1 ≤ poh.remainingHashes
  count_le : poh.numHashes + poh.remainingHashes ≤ k
  hash_eq : poh.hash = rehash poh.numHashes (lastHash h entries)
  entries_pos : ∀ e ∈ entries, 1 ≤ e.1.numHashes
  replays : Poh.verify h entries = some true
  budget : k < 2 ^ 64 - 1 → sinceTick entries + poh.numHashes + poh.remainingHashes = k
  ticks : k < 2 ^ 64 - 1 → ∀ pre e post, entries = pre ++ (e, none) :: post →
    sinceTick pre + e.numHashes = k

namespace Poh.Inv

variable {h : Hash} {k : Nat} {poh : Poh} {entries : List (PohEntry × Option Hash)}

theorem new (h : Hash) {k : Nat} (hk : 1 < k) : Poh.Inv h k ⟨h, 0, k, k⟩ [] where
  hashesPerTick_eq := rfl
  remaining_pos := by dsimp only; omega
  count_le := by dsimp only; omega
  hash_eq := rfl
  entries_pos := by simp
  replays := rfl
  budget _ := by simp [sinceTick]
  ticks _ pre e post hnil := by simp at hnil

/-- A record keeps the tick entries where they were. -/
theorem ticks_append_record (hinv : Poh.Inv h k poh entries) (e : PohEntry) (mixin : Hash)
    (hk : k < 2 ^ 64 - 1) : ∀ pre e' post, entries ++ [(e, some mixin)] = pre ++ (e', none) :: post →
      sinceTick pre + e'.numHashes = k := by
  intro pre e' post hsplit
  rcases tick_mem_append hsplit with ⟨-, hx⟩ | ⟨post', hentries⟩
  · cases hx
  · exact hinv.ticks hk pre e' post' hentries

/-- `Poh::hash` keeps the invariant and emits nothing. -/
theorem hashN (hinv : Poh.Inv h k poh entries) (m : Nat) :
    ∃ poh', poh.step (.hash m) = some (poh', []) ∧ Poh.Inv h k poh' (entries ++ []) := by
  have hpos := hinv.remaining_pos
  refine ⟨{ poh with
      hash := rehash (min (poh.remainingHashes - 1) m) poh.hash
      numHashes := poh.numHashes + min (poh.remainingHashes - 1) m
      remainingHashes := poh.remainingHashes - min (poh.remainingHashes - 1) m },
    by simp [Poh.step_hash, Poh.hashN_eq poh m hpos], ?_⟩
  rw [List.append_nil]
  have hcount := hinv.count_le
  constructor
  case hash_eq => simp only [hinv.hash_eq, rehash_rehash]
  case budget =>
    intro hk
    have := hinv.budget hk
    dsimp only
    omega
  all_goals first
    | exact hinv.hashesPerTick_eq | exact hinv.entries_pos | exact hinv.replays
    | exact hinv.ticks | dsimp only; omega

/-- `Poh::record` keeps the invariant, with the entry it emits when a hash is left before the
tick. -/
theorem record (hinv : Poh.Inv h k poh entries) (mixin : Hash) :
    ∃ poh' out, poh.step (.record mixin) = some (poh', out) ∧
      Poh.Inv h k poh' (entries ++ out) := by
  have hpos := hinv.remaining_pos
  have hcount := hinv.count_le
  by_cases hlast : poh.remainingHashes = 1
  · -- refused at the final hash: nothing changes
    refine ⟨poh, [], by simp [Poh.step_record, Poh.record, hlast], ?_⟩
    rw [List.append_nil]
    exact hinv
  · have hrecord : poh.record mixin =
        ({ poh with
            hash := hashv [poh.hash.bytes.toList, mixin.bytes.toList]
            numHashes := 0
            remainingHashes := poh.remainingHashes - 1 },
          some ⟨poh.numHashes + 1, hashv [poh.hash.bytes.toList, mixin.bytes.toList]⟩) := by
      simp [Poh.record, hlast]
    refine ⟨_, _, by simp only [Poh.step_record, hrecord]; rfl, ?_⟩
    constructor
    case hashesPerTick_eq => exact hinv.hashesPerTick_eq
    case remaining_pos => dsimp only; omega
    case count_le => dsimp only; omega
    case hash_eq => simp [rehash_zero]
    case entries_pos =>
      intro e he
      simp only [Option.map_some, Option.toList_some, List.mem_append, List.mem_singleton] at he
      rcases he with he | rfl
      · exact hinv.entries_pos e he
      · exact Nat.succ_pos _
    case replays =>
      simp only [Option.map_some, Option.toList_some]
      rw [verify_append hinv.replays, hinv.hash_eq]
      exact verify_record _ mixin _
    case budget =>
      intro hk
      have := hinv.budget hk
      simp only [Option.map_some, Option.toList_some, sinceTick_append_record]
      omega
    case ticks =>
      intro hk
      simpa using hinv.ticks_append_record _ mixin hk

/-- `Poh::tick` keeps the invariant; it ends the tick, with an entry, exactly when the hashes
reach its count or the count is unbounded. -/
theorem tick (hinv : Poh.Inv h k poh entries) :
    ∃ poh' out, poh.step .tick = some (poh', out) ∧ Poh.Inv h k poh' (entries ++ out) := by
  have hpos := hinv.remaining_pos
  have hcount := hinv.count_le
  have hk := hinv.hashesPerTick_eq
  by_cases hmid : poh.hashesPerTick < 2 ^ 64 - 1 ∧ poh.remainingHashes - 1 ≠ 0
  · -- a hash within the tick
    have htick : poh.tick =
        ({ poh with
            hash := Morgan.hash poh.hash.bytes.toList
            numHashes := poh.numHashes + 1
            remainingHashes := poh.remainingHashes - 1 }, none) := by
      simp only [Poh.tick]
      rw [if_pos hmid]
    refine ⟨_, [], by simp only [Poh.step_tick, htick]; rfl, ?_⟩
    rw [List.append_nil]
    constructor
    case hashesPerTick_eq => exact hk
    case remaining_pos => dsimp only; omega
    case count_le => dsimp only; omega
    case hash_eq => simp only [hinv.hash_eq, rehash_succ]
    case entries_pos => exact hinv.entries_pos
    case replays => exact hinv.replays
    case budget =>
      intro hlt
      have := hinv.budget hlt
      dsimp only
      omega
    case ticks => exact hinv.ticks
  · -- the tick ends: its entry, and the count restored
    have htick : poh.tick =
        ({ poh with
            hash := Morgan.hash poh.hash.bytes.toList
            numHashes := 0
            remainingHashes := poh.hashesPerTick },
          some ⟨poh.numHashes + 1, Morgan.hash poh.hash.bytes.toList⟩) := by
      simp only [Poh.tick]
      rw [if_neg hmid]
    refine ⟨_, _, by simp only [Poh.step_tick, htick]; rfl, ?_⟩
    -- a bounded tick ends only at its last hash
    have hlast : k < 2 ^ 64 - 1 → poh.remainingHashes = 1 := fun hlt => by
      rw [← hk] at hlt
      omega
    constructor
    case hashesPerTick_eq => exact hk
    case remaining_pos => dsimp only; omega
    case count_le => dsimp only; omega
    case hash_eq => simp [rehash_zero]
    case entries_pos =>
      intro e he
      simp only [Option.map_some, Option.toList_some, List.mem_append, List.mem_singleton] at he
      rcases he with he | rfl
      · exact hinv.entries_pos e he
      · exact Nat.succ_pos _
    case replays =>
      simp only [Option.map_some, Option.toList_some]
      rw [verify_append hinv.replays, hinv.hash_eq]
      exact verify_tick _ _
    case budget =>
      intro _
      simp only [Option.map_some, Option.toList_some, sinceTick_append_tick]
      omega
    case ticks =>
      intro hlt pre e post hsplit
      simp only [Option.map_some, Option.toList_some] at hsplit
      rcases tick_mem_append hsplit with ⟨rfl, hx⟩ | ⟨post', hentries⟩
      · -- the new tick entry: the records since the last tick, then its own hashes
        rw [Prod.mk.injEq] at hx
        obtain ⟨rfl, -⟩ := hx
        have := hinv.budget hlt
        have := hlast hlt
        dsimp only
        omega
      · exact hinv.ticks hlt pre e post' hentries

/-- Every call keeps the invariant, and none panics. -/
theorem step (hinv : Poh.Inv h k poh entries) (op : PohOp) :
    ∃ poh' out, poh.step op = some (poh', out) ∧ Poh.Inv h k poh' (entries ++ out) := by
  cases op with
  | hash m =>
    obtain ⟨poh', hstep, hinv'⟩ := hinv.hashN m
    exact ⟨poh', [], hstep, hinv'⟩
  | record mixin => exact hinv.record mixin
  | tick => exact hinv.tick

end Poh.Inv

/-! ## Every interleaving -/

/-- From `Poh::new(h, k)` with `k > 1` or none, every sequence of calls runs without a panic and
leaves between one hash and the tick's count left; every entry emitted has a hash or more and
replays from `h`; and with a count below `u64::MAX`, the entries since the last tick entry,
that one included, add up to the count. -/
theorem poh_interleavings_replay (h : Hash) (k : Option Nat) (hk : ∀ n ∈ k, 1 < n)
    (ops : List PohOp) :
    ∃ poh₀ poh entries, Poh.new h k = some poh₀ ∧
      Machine.run Poh.step poh₀ ops = some (poh, entries) ∧
      1 ≤ poh.remainingHashes ∧ poh.remainingHashes ≤ k.getD (2 ^ 64 - 1) ∧
      (∀ e ∈ entries, 1 ≤ e.1.numHashes) ∧ Poh.verify h entries = some true ∧
      ∀ n, k = some n → n < 2 ^ 64 - 1 → ∀ pre e post, entries = pre ++ (e, none) :: post →
        sinceTick pre + e.numHashes = n := by
  have hK : 1 < k.getD (2 ^ 64 - 1) := by
    cases k with
    | none => decide
    | some n => exact hk n rfl
  obtain ⟨poh, entries, hrun, hinv⟩ :=
    Machine.run_of_invariant Poh.step (fun poh entries => Poh.Inv h (k.getD (2 ^ 64 - 1)) poh entries)
      (fun _ _ op hinv => hinv.step op) ops (Poh.Inv.new h hK)
  rw [List.nil_append] at hinv
  refine ⟨_, poh, entries, Poh.new_eq h hK, hrun, hinv.remaining_pos,
    by have := hinv.count_le; omega, hinv.entries_pos, hinv.replays, ?_⟩
  rintro n rfl hlt
  exact hinv.ticks hlt

theorem poh_interleavings_replay_tick_of_two :
    ∃ poh₀ poh entries, Poh.new default (some 2) = some poh₀ ∧
      Machine.run Poh.step poh₀ [.hash 5, .record default, .tick, .tick] = some (poh, entries) ∧
      1 ≤ poh.remainingHashes ∧ poh.remainingHashes ≤ (some 2).getD (2 ^ 64 - 1) ∧
      (∀ e ∈ entries, 1 ≤ e.1.numHashes) ∧ Poh.verify default entries = some true ∧
      ∀ n, some 2 = some n → n < 2 ^ 64 - 1 → ∀ pre e post, entries = pre ++ (e, none) :: post →
        sinceTick pre + e.numHashes = n :=
  poh_interleavings_replay default (some 2) (by simp) [.hash 5, .record default, .tick, .tick]

/-- With a tick of `u64::MAX` hashes given, the first `tick` already ends one, after one hash. -/
theorem poh_tick_entry_short_of_max_tick :
    ∃ poh₀ poh e, Poh.new default (some (2 ^ 64 - 1)) = some poh₀ ∧
      Machine.run Poh.step poh₀ [.tick] = some (poh, [(e, none)]) ∧
      sinceTick [] + e.numHashes ≠ 2 ^ 64 - 1 := by
  have htick : (⟨default, 0, 2 ^ 64 - 1, 2 ^ 64 - 1⟩ : Poh).tick =
      (⟨hash (default : Hash).bytes.toList, 0, 2 ^ 64 - 1, 2 ^ 64 - 1⟩,
        some ⟨1, hash (default : Hash).bytes.toList⟩) := by
    simp only [Poh.tick]
    rw [if_neg (by decide)]
  refine ⟨⟨default, 0, 2 ^ 64 - 1, 2 ^ 64 - 1⟩, ⟨hash (default : Hash).bytes.toList, 0, 2 ^ 64 - 1,
    2 ^ 64 - 1⟩, ⟨1, hash (default : Hash).bytes.toList⟩, Poh.new_eq default (by decide), ?_,
    by simp [sinceTick]⟩
  simp only [Machine.run_cons, Machine.run_nil, Poh.step_tick, htick]
  rfl

end Morgan
