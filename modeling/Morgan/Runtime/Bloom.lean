import Morgan.Interface.Basic

/-!
# The Bloom filter of gossip pull requests

`bloom.rs`: a filter is a list of hash keys and a bit vector.  An item sets, and is looked up at,
one bit per key: its FNV hash under the key, reduced modulo the length of the vector.  Adding an
item never clears a bit, so a filter has no false negatives (`contains_add`,
`contains_add_of_contains`).

A node sends its filter in a pull request and the peer looks its own values up in it, so the
keys and the length are the requester's.  The reduction modulo a length of zero is a division by
zero, which panics (`contains_eq_none_iff`).
-/

namespace Morgan

/-- The multiplier of 64-bit FNV-1a. -/
def FNV_PRIME : UInt64 := 0x100000001b3

/-- `slice_hash`: FNV-1a over the bytes, from the hash index in place of the offset basis
(`FnvHasher::with_key`). -/
def sliceHash (slice : List UInt8) (hashIndex : UInt64) : UInt64 :=
  slice.foldl (fun hash byte => (hash ^^^ byte.toUInt64) * FNV_PRIME) hashIndex

/-- `BloomHashIndex`. -/
class BloomHashIndex (T : Type) where
  hashAtIndex : T → UInt64 → UInt64

/-- The implementation for every `AsRef<[u8]>`, here a hash. -/
instance : BloomHashIndex Hash := ⟨fun h => sliceHash h.bytes.toList⟩

/-- `Bloom<T>`: the bit vector is a list of its bits. -/
structure Bloom (T : Type) where
  keys : List UInt64
  bits : List Bool
  deriving DecidableEq, Repr

namespace Bloom

variable {T : Type} [BloomHashIndex T]

/-- `Bloom::new`. -/
def new (numBits : Nat) (keys : List UInt64) : Bloom T := ⟨keys, List.replicate numBits false⟩

/-- `bits.len()`. -/
def len (b : Bloom T) : UInt64 := UInt64.ofNat b.bits.length

/-- `pos`: `none` is the panic of `% 0`. -/
def pos (b : Bloom T) (key : T) (k : UInt64) : Option UInt64 :=
  if b.len = 0 then none else some (BloomHashIndex.hashAtIndex key k % b.len)

/-- `clear`. -/
def clear (b : Bloom T) : Bloom T := { b with bits := List.replicate b.bits.length false }

/-- The loop of `add` over the keys. -/
def setBits (key : T) : List UInt64 → Bloom T → Option (Bloom T)
  | [], b => some b
  | k :: ks, b => do
    let pos ← b.pos key k
    setBits key ks { b with bits := b.bits.set pos.toNat true }

/-- `add`. -/
def add (b : Bloom T) (key : T) : Option (Bloom T) := setBits key b.keys b

/-- The loop of `contains` over the keys; reading a bit past the end would panic. -/
def containsKeys (b : Bloom T) (key : T) : List UInt64 → Option Bool
  | [] => some true
  | k :: ks => do
    let pos ← b.pos key k
    let bit ← b.bits[pos.toNat]?
    if !bit then some false else b.containsKeys key ks

theorem containsKeys_nil (b : Bloom T) (key : T) : b.containsKeys key [] = some true := rfl

theorem containsKeys_cons (b : Bloom T) (key : T) (k : UInt64) (ks : List UInt64) :
    b.containsKeys key (k :: ks) =
      (b.pos key k).bind fun pos => b.bits[pos.toNat]?.bind fun bit =>
        if !bit then some false else b.containsKeys key ks := rfl

/-- `contains`. -/
def contains (b : Bloom T) (key : T) : Option Bool := b.containsKeys key b.keys

/-! ## Positions -/

theorem pos_eq_none_iff {b : Bloom T} {key : T} {k : UInt64} : b.pos key k = none ↔ b.len = 0 := by
  unfold pos
  split_ifs with h <;> simp [h]

theorem pos_eq_some {b : Bloom T} (h : b.len ≠ 0) (key : T) (k : UInt64) :
    b.pos key k = some (BloomHashIndex.hashAtIndex key k % b.len) := by
  simp [pos, h]

theorem pos_lt {b : Bloom T} {key : T} {k p : UInt64} (h : b.pos key k = some p) :
    p.toNat < b.bits.length := by
  unfold pos at h
  split_ifs at h with hlen
  cases h
  have hmod : (BloomHashIndex.hashAtIndex key k % b.len).toNat < b.len.toNat := by
    rw [UInt64.toNat_mod]
    apply Nat.mod_lt
    rw [Nat.pos_iff_ne_zero, Ne, ← UInt64.toNat_zero, UInt64.toNat_inj]
    exact hlen
  calc _ < b.len.toNat := hmod
    _ = b.bits.length % 2 ^ 64 := UInt64.toNat_ofNat
    _ ≤ b.bits.length := Nat.mod_le _ _

omit [BloomHashIndex T] in
/-- Setting a bit keeps the length, hence every position (`pos_of_len_eq`). -/
@[simp] theorem len_set (b : Bloom T) (i : Nat) (v : Bool) :
    ({ b with bits := b.bits.set i v } : Bloom T).len = b.len := by
  simp [len]

theorem pos_of_len_eq {b b' : Bloom T} (h : b'.len = b.len) (key : T) (k : UInt64) :
    b'.pos key k = b.pos key k := by
  simp only [pos, h]

/-! ## Lookups -/

theorem containsKeys_eq_none_iff {b : Bloom T} {key : T} :
    ∀ {ks : List UInt64}, b.containsKeys key ks = none ↔ ks ≠ [] ∧ b.len = 0
  | [] => by simp [containsKeys_nil]
  | k :: ks => by
    by_cases hlen : b.len = 0
    · simp [containsKeys_cons, pos_eq_none_iff.2 hlen, hlen]
    -- with a nonzero length the position exists and lies inside the vector
    obtain ⟨p, hp⟩ : ∃ p, b.pos key k = some p := ⟨_, pos_eq_some hlen key k⟩
    have hlt := pos_lt hp
    have hbit : b.bits[p.toNat]? = some b.bits[p.toNat] := List.getElem?_eq_getElem hlt
    simp only [containsKeys_cons, hp, hbit, Option.bind_some, ne_eq,
      reduceCtorEq, not_false_eq_true, hlen, and_false, iff_false]
    split
    · simp
    · exact fun h => hlen (containsKeys_eq_none_iff.1 h).2

/-- `contains` panics exactly when the filter has a key and an empty bit vector. -/
theorem contains_eq_none_iff {b : Bloom T} {key : T} :
    b.contains key = none ↔ b.keys ≠ [] ∧ b.len = 0 :=
  containsKeys_eq_none_iff

/-- An item is found exactly when its bit under every key is set. -/
theorem containsKeys_eq_true_iff {b : Bloom T} {key : T} :
    ∀ {ks : List UInt64}, b.containsKeys key ks = some true ↔
      ∀ k ∈ ks, ∃ p, b.pos key k = some p ∧ b.bits[p.toNat]? = some true
  | [] => by simp [containsKeys_nil]
  | k :: ks => by
    rw [List.forall_mem_cons, ← containsKeys_eq_true_iff]
    cases hp : b.pos key k with
    | none => simp [containsKeys_cons, hp]
    | some p =>
      cases hbit : b.bits[p.toNat]? with
      | none => simp [containsKeys_cons, hp, hbit]
      | some bit => cases bit <;> simp [containsKeys_cons, hp, hbit]

/-! ## Adding never clears a bit -/

theorem getElem?_set_true {bits : List Bool} {i j : Nat} (h : bits[i]? = some true) :
    (bits.set j true)[i]? = some true := by
  rw [List.getElem?_set]
  by_cases hij : j = i
  · subst hij
    simp [(List.getElem?_eq_some_iff.1 h).1]
  · simp [hij, h]

theorem setBits_cons (key : T) (k : UInt64) (ks : List UInt64) (b : Bloom T) :
    setBits key (k :: ks) b =
      (b.pos key k).bind fun pos => setBits key ks { b with bits := b.bits.set pos.toNat true } :=
  rfl

theorem setBits_keys {key : T} : ∀ {ks : List UInt64} {b b' : Bloom T},
    setBits key ks b = some b' → b'.keys = b.keys ∧ b'.len = b.len
  | [], _, _, h => by cases h; exact ⟨rfl, rfl⟩
  | k :: ks, b, b', h => by
    simp only [setBits_cons, Option.bind_eq_some_iff] at h
    obtain ⟨p, -, h⟩ := h
    obtain ⟨hk, hl⟩ := setBits_keys h
    exact ⟨hk, hl.trans (len_set b _ _)⟩

theorem setBits_mono {key : T} {i : Nat} : ∀ {ks : List UInt64} {b b' : Bloom T},
    setBits key ks b = some b' → b.bits[i]? = some true → b'.bits[i]? = some true
  | [], _, _, h, hi => by cases h; exact hi
  | k :: ks, b, b', h, hi => by
    simp only [setBits_cons, Option.bind_eq_some_iff] at h
    obtain ⟨p, -, h⟩ := h
    exact setBits_mono h (getElem?_set_true hi)

/-- After the loop of `add`, the bit of the item under each key is set. -/
theorem setBits_sets {key : T} : ∀ {ks : List UInt64} {b b' : Bloom T},
    setBits key ks b = some b' → ∀ k ∈ ks, ∃ p, b'.pos key k = some p ∧ b'.bits[p.toNat]? = some true
  | [], _, _, _, _, hk => by simp at hk
  | k :: ks, b, b', h, k', hk' => by
    simp only [setBits_cons, Option.bind_eq_some_iff] at h
    obtain ⟨p, hp, h⟩ := h
    rcases List.mem_cons.1 hk' with rfl | hk'
    · have hlt : p.toNat < b.bits.length := pos_lt hp
      have hlen : b'.len = b.len := (setBits_keys h).2.trans (len_set b _ _)
      refine ⟨p, (pos_of_len_eq hlen key k').trans hp, setBits_mono h ?_⟩
      simp [hlt]
    · exact setBits_sets h k' hk'

theorem setBits_isSome (key : T) :
    ∀ (ks : List UInt64) (b : Bloom T), b.len ≠ 0 → (setBits key ks b).isSome
  | [], _, _ => rfl
  | k :: ks, b, hlen => by
    simp only [setBits_cons, pos_eq_some hlen, Option.bind_some]
    exact setBits_isSome key ks _ (by rwa [len_set])

/-- A filter with a nonempty bit vector takes an item, and then contains it. -/
theorem contains_add {b : Bloom T} (hlen : b.len ≠ 0) (key : T) :
    ∃ b', b.add key = some b' ∧ b'.contains key = some true := by
  obtain ⟨b', hb'⟩ := Option.isSome_iff_exists.1 (setBits_isSome key b.keys b hlen)
  refine ⟨b', hb', ?_⟩
  unfold contains
  rw [(setBits_keys hb').1]
  exact containsKeys_eq_true_iff.2 (setBits_sets hb')

/-- Adding an item keeps every item the filter contained. -/
theorem contains_add_of_contains {b b' : Bloom T} {key key' : T} (hadd : b.add key = some b')
    (h : b.contains key' = some true) : b'.contains key' = some true := by
  obtain ⟨hkeys, hlen⟩ := setBits_keys hadd
  unfold contains at h ⊢
  rw [hkeys]
  refine containsKeys_eq_true_iff.2 fun k hk => ?_
  obtain ⟨p, hp, hbit⟩ := containsKeys_eq_true_iff.1 h k hk
  exact ⟨p, (pos_of_len_eq hlen key' k).trans hp, setBits_mono hadd hbit⟩

end Bloom

end Morgan
