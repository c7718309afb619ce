import Mathlib
import Morgan.Lib.AssocMap

/-!
# Byte-stream decoders in the style of bincode

Bincode 1.x writes a value as the concatenation of its fields: a `u8` is one byte, a fixed-size
byte array its bytes, a struct its fields in declaration order.  A decoder reads a prefix of its
input and returns the value with the rest of the input; `none` is a decoding error (the input ended
early, or the bytes are not a value).  `deserialize` runs a decoder on a whole buffer and ignores
the bytes it leaves, as `bincode::deserialize` does.

A decoder *reads back* an encoder when decoding the encoding of any value, followed by any bytes,
returns that value and those bytes (`ReadsBack`); the encoder is partial, and fails on the values it
cannot write.  This is the round-trip property of a wire format, and it composes: fields in
sequence (`ReadsBack.run_bind`), a constructor (`ReadsBack.map`) and a counted sequence of elements
(`ReadsBack.count`).
-/

namespace Bincode

/-- A decoder: reads a prefix of the input; `none` is an error. -/
abbrev Decoder (α : Type) := StateT (List UInt8) Option α

variable {α β : Type}

/-- One byte. -/
def byte : Decoder UInt8 := fun
  | b :: bs => some (b, bs)
  | [] => none

/-- `n` raw bytes: a fixed-size byte array. -/
def bytes (n : Nat) : Decoder (List UInt8) := fun bs =>
  if n ≤ bs.length then some (bs.take n, bs.drop n) else none

/-- `n` raw bytes as an array of that size. -/
def array (n : Nat) : Decoder (Vector UInt8 n) := fun bs =>
  if h : n ≤ bs.length then some (⟨(bs.take n).toArray, by simp; omega⟩, bs.drop n) else none

/-- `n` values in sequence: the body of a length-prefixed sequence. -/
def count (d : Decoder α) : Nat → Decoder (List α)
  | 0 => pure []
  | n + 1 => do
    let a ← d
    let as ← count d n
    pure (a :: as)

theorem count_succ (d : Decoder α) (n : Nat) :
    count d (n + 1) = (do let a ← d; let as ← count d n; pure (a :: as)) := rfl

/-- The number a list of bytes stands for, least significant byte first. -/
def ofLittleEndian (bs : List UInt8) : Nat := bs.foldr (fun b acc => b.toNat + 256 * acc) 0

/-- A `u32`: four bytes, little-endian. -/
def u32 : Decoder UInt32 := do
  let bs ← bytes 4
  pure (UInt32.ofNat (ofLittleEndian bs))

/-- A `u64`: eight bytes, little-endian. -/
def u64 : Decoder UInt64 := do
  let bs ← bytes 8
  pure (UInt64.ofNat (ofLittleEndian bs))

/-- A `Vec<T>`: a `u64` length, then the elements. -/
def vec (d : Decoder α) : Decoder (List α) := do
  let len ← u64
  count d len.toNat

/-- A `HashMap<K, V>`: a `u64` length, then the entries, key before value; a later entry of a key
replaces an earlier one. -/
def map [BEq α] (dk : Decoder α) (dv : Decoder β) : Decoder (AssocMap α β) := do
  let entries ← vec do
    let k ← dk
    let v ← dv
    pure (k, v)
  pure (AssocMap.extend [] entries)

/-- An `Option<T>`: a tag byte, `0` for `None` and `1` for `Some`, then the value. -/
def option (d : Decoder α) : Decoder (Option α) := do
  let tag ← byte
  match tag with
  | 0 => pure none
  | 1 => some <$> d
  | _ => failure

/-- `n` as `width` little-endian bytes, modulo `256 ^ width`. -/
def toLittleEndian : Nat → Nat → List UInt8
  | 0, _ => []
  | width + 1, n => UInt8.ofNat (n % 256) :: toLittleEndian width (n / 256)

theorem toLittleEndian_zero (n : Nat) : toLittleEndian 0 n = [] := rfl

theorem toLittleEndian_succ (width n : Nat) :
    toLittleEndian (width + 1) n = UInt8.ofNat (n % 256) :: toLittleEndian width (n / 256) := rfl

/-- The encoding of a `u32`. -/
def encodeU32 (x : UInt32) : List UInt8 := toLittleEndian 4 x.toNat

/-- The encoding of a `u64`. -/
def encodeU64 (x : UInt64) : List UInt8 := toLittleEndian 8 x.toNat

/-- The encoding of a `Vec<T>`. -/
def encodeVec (encode : α → List UInt8) (as : List α) : List UInt8 :=
  encodeU64 (UInt64.ofNat as.length) ++ as.flatMap encode

/-- The encoding of a `Vec<T>` whose elements may fail to encode. -/
def encodeVecM (encode : α → Option (List UInt8)) (as : List α) : Option (List UInt8) := do
  let encoded ← as.mapM encode
  pure (encodeU64 (UInt64.ofNat as.length) ++ encoded.flatten)

/-- The encoding of a `HashMap<K, V>`, its entries in the map's order. -/
def encodeMap (ek : α → List UInt8) (ev : β → List UInt8) (m : AssocMap α β) : List UInt8 :=
  encodeVec (fun e => ek e.1 ++ ev e.2) m

/-- The encoding of an `Option<T>`. -/
def encodeOption (encode : α → List UInt8) : Option α → List UInt8
  | none => [0]
  | some a => 1 :: encode a

/-- `bincode::serialize_into` a byte slice: the encoding over the front of the buffer; `none` when
it does not fit, where the slice's writer fails. -/
def serializeInto (encoding buffer : List UInt8) : Option (List UInt8) :=
  if encoding.length ≤ buffer.length then some (encoding ++ buffer.drop encoding.length) else none

/-- `bincode::deserialize`: decode a value from a prefix of the buffer. -/
def deserialize (d : Decoder α) (buffer : List UInt8) : Option α := (d.run buffer).map Prod.fst

@[simp] theorem byte_cons (b : UInt8) (bs : List UInt8) : byte.run (b :: bs) = some (b, bs) := rfl

theorem bytes_append {l : List UInt8} {n : Nat} (hl : l.length = n) (rest : List UInt8) :
    (bytes n).run (l ++ rest) = some (l, rest) := by
  subst hl
  simp [bytes, StateT.run]

theorem array_append {n : Nat} (v : Vector UInt8 n) (rest : List UInt8) :
    (array n).run (v.toList ++ rest) = some (v, rest) := by
  have hlen : n ≤ (v.toList ++ rest).length := by simp
  have htake : (v.toList ++ rest).take n = v.toList := List.take_left' (by simp)
  have hdrop : (v.toList ++ rest).drop n = rest := List.drop_left' (by simp)
  simp only [StateT.run, array, dif_pos hlen, hdrop, Option.some.injEq, Prod.mk.injEq, and_true]
  apply Vector.toList_inj.1
  simp [htake]

theorem deserialize_of_run {d : Decoder α} {buffer rest : List UInt8} {a : α}
    (h : d.run buffer = some (a, rest)) : deserialize d buffer = some a := by
  simp [deserialize, h]

/-! ## Reading back an encoding -/

/-- `d` reads back `encode`: decoding an encoding, followed by any bytes, returns the value and
those bytes.  `encode` fails (`none`) outside the values it can write. -/
def ReadsBack (d : Decoder α) (encode : α → Option (List UInt8)) : Prop :=
  ∀ a bytes, encode a = some bytes → ∀ rest, d.run (bytes ++ rest) = some (a, rest)

theorem ReadsBack.byte : ReadsBack byte fun b => some [b] := by
  intro b bytes h rest
  cases h
  rfl

theorem ReadsBack.array (n : Nat) : ReadsBack (array n) fun v => some v.toList := by
  intro v bytes h rest
  cases h
  exact array_append v rest

/-- Running a decoder on a buffer that starts with an encoding it reads back, then the rest. -/
theorem ReadsBack.run_bind {d : Decoder α} {encode : α → Option (List UInt8)}
    (h : ReadsBack d encode) {a : α} {bytes : List UInt8} (ha : encode a = some bytes)
    (f : α → Decoder β) (rest : List UInt8) :
    (d >>= f).run (bytes ++ rest) = (f a).run rest := by
  rw [StateT.run_bind, h a bytes ha rest]
  rfl

/-- A decoder mapped through a constructor reads back the encoder of the constructor's field. -/
theorem ReadsBack.map {d : Decoder α} {encode : α → Option (List UInt8)} (h : ReadsBack d encode)
    (f : α → β) (g : β → α) (hfg : ∀ b, f (g b) = b) :
    ReadsBack (f <$> d) fun b => encode (g b) := by
  intro b bytes hb rest
  rw [StateT.run_map, h (g b) bytes hb rest]
  simp [hfg]

/-- `count` reads back the concatenated encodings of exactly `n` values, each of which `d` reads
back. -/
theorem count_run {d : Decoder α} {encode : α → Option (List UInt8)} :
    ∀ (l : List α), (∀ a ∈ l, ∀ bytes, encode a = some bytes → ∀ rest,
        d.run (bytes ++ rest) = some (a, rest)) →
      ∀ (encoded : List (List UInt8)), l.mapM encode = some encoded → ∀ rest,
        (Bincode.count d l.length).run (encoded.flatten ++ rest) = some (l, rest)
  | [], _, encoded, henc, rest => by
    simp only [List.mapM_nil, pure, Option.some.injEq] at henc
    subst henc
    rfl
  | a :: l, h, encoded, henc, rest => by
    simp only [List.mapM_cons, Option.bind_eq_bind, Option.bind_eq_some_iff, Option.pure_def,
      Option.some.injEq] at henc
    obtain ⟨bytes, ha, encodedRest, hl, rfl⟩ := henc
    simp only [count_succ, List.length_cons, List.flatten_cons, List.append_assoc]
    have hrest := count_run l (fun a' ha' => h a' (List.mem_cons_of_mem a ha')) encodedRest hl rest
    have ha' := h a List.mem_cons_self bytes ha (encodedRest.flatten ++ rest)
    simp only [StateT.run_bind, ha', Option.bind_eq_bind, Option.bind_some, hrest]
    rfl

theorem ReadsBack.count {d : Decoder α} {encode : α → Option (List UInt8)}
    (h : ReadsBack d encode) (l : List α) :
    ∀ (encoded : List (List UInt8)), l.mapM encode = some encoded → ∀ rest,
      (Bincode.count d l.length).run (encoded.flatten ++ rest) = some (l, rest) :=
  count_run l fun a _ => h a

/-- An encoder of a sequence fails exactly when it fails on one element. -/
theorem mapM_eq_none_iff {f : α → Option β} :
    ∀ {l : List α}, l.mapM f = none ↔ ∃ a ∈ l, f a = none
  | [] => by simp
  | a :: l => by
    rw [List.mapM_cons]
    cases h : f a with
    | none => simp [h]
    | some b =>
      have ih := mapM_eq_none_iff (f := f) (l := l)
      cases hl : l.mapM f <;> simp_all

/-! ## Integers -/

@[simp] theorem length_toLittleEndian : ∀ (width n : Nat), (toLittleEndian width n).length = width
  | 0, _ => rfl
  | width + 1, n => by simp [toLittleEndian_succ, length_toLittleEndian width]

theorem ofLittleEndian_toLittleEndian :
    ∀ (width n : Nat), ofLittleEndian (toLittleEndian width n) = n % 256 ^ width
  | 0, n => by simp [toLittleEndian_zero, ofLittleEndian, Nat.mod_one]
  | width + 1, n => by
    have hlow : (UInt8.ofNat (n % 256)).toNat = n % 256 := by
      rw [UInt8.toNat_ofNat']
      exact Nat.mod_mod_of_dvd _ (by norm_num)
    have hrest := ofLittleEndian_toLittleEndian width (n / 256)
    simp only [toLittleEndian_succ, ofLittleEndian, List.foldr_cons] at hrest ⊢
    rw [hlow, hrest, Nat.pow_succ, Nat.mul_comm (256 ^ width), Nat.mod_mul]

theorem ReadsBack.u32 : ReadsBack u32 fun x => some (encodeU32 x) := by
  intro x bytes h rest
  obtain rfl : encodeU32 x = bytes := Option.some.inj h
  unfold encodeU32
  rw [Bincode.u32, StateT.run_bind, bytes_append (length_toLittleEndian 4 x.toNat) rest]
  show some (UInt32.ofNat (ofLittleEndian (toLittleEndian 4 x.toNat)), rest) = some (x, rest)
  rw [ofLittleEndian_toLittleEndian]
  rw [show (256 : Nat) ^ 4 = 2 ^ 32 by norm_num, Nat.mod_eq_of_lt x.toNat_lt, UInt32.ofNat_toNat]

/-- The number the encoding of a `u64` stands for is that `u64`. -/
theorem ofNat_ofLittleEndian_encodeU64 (x : UInt64) :
    UInt64.ofNat (ofLittleEndian (encodeU64 x)) = x := by
  rw [encodeU64, ofLittleEndian_toLittleEndian]
  rw [show (256 : Nat) ^ 8 = 2 ^ 64 by norm_num, Nat.mod_eq_of_lt x.toNat_lt, UInt64.ofNat_toNat]

theorem ReadsBack.u64 : ReadsBack u64 fun x => some (encodeU64 x) := by
  intro x bytes h rest
  obtain rfl : encodeU64 x = bytes := Option.some.inj h
  rw [Bincode.u64, StateT.run_bind, encodeU64, bytes_append (length_toLittleEndian 8 x.toNat) rest]
  show some (UInt64.ofNat (ofLittleEndian (toLittleEndian 8 x.toNat)), rest) = some (x, rest)
  rw [← encodeU64, ofNat_ofLittleEndian_encodeU64]

/-- `vec` reads back a vector shorter than `2 ^ 64` whose elements `d` reads back, as the `u64`
prefix holds its length. -/
theorem vec_run {d : Decoder α} {encode : α → Option (List UInt8)} {as : List α}
    (h : ∀ a ∈ as, ∀ bytes, encode a = some bytes → ∀ rest, d.run (bytes ++ rest) = some (a, rest))
    (hlen : as.length < 2 ^ 64) {bytes : List UInt8} (henc : encodeVecM encode as = some bytes)
    (rest : List UInt8) : (vec d).run (bytes ++ rest) = some (as, rest) := by
  simp only [encodeVecM, Option.bind_eq_bind, Option.bind_eq_some_iff, Option.pure_def,
    Option.some.injEq] at henc
  obtain ⟨encoded, hmap, rfl⟩ := henc
  have hcount : (UInt64.ofNat as.length).toNat = as.length := by
    rw [UInt64.toNat_ofNat', Nat.mod_eq_of_lt hlen]
  rw [Bincode.vec, List.append_assoc, ReadsBack.u64.run_bind rfl, hcount]
  exact count_run as h encoded hmap rest

theorem ReadsBack.vec {d : Decoder α} {encode : α → Option (List UInt8)} (h : ReadsBack d encode)
    {as : List α} (hlen : as.length < 2 ^ 64) {bytes : List UInt8}
    (henc : encodeVecM encode as = some bytes) (rest : List UInt8) :
    (vec d).run (bytes ++ rest) = some (as, rest) :=
  vec_run (fun a _ => h a) hlen henc rest

/-- A byte sequence reads back one byte at a time. -/
theorem count_byte_run :
    ∀ (bs rest : List UInt8), (count byte bs.length).run (bs ++ rest) = some (bs, rest)
  | [], rest => rfl
  | b :: bs, rest => by
    simp [count_succ, StateT.run_bind, count_byte_run bs rest]

/-- A `Vec<u8>` shorter than `2 ^ 64` reads back. -/
theorem vec_byte_run {bs : List UInt8} (h : bs.length < 2 ^ 64) (rest : List UInt8) :
    (vec byte).run (encodeU64 (UInt64.ofNat bs.length) ++ bs ++ rest) = some (bs, rest) := by
  have hcount : (UInt64.ofNat bs.length).toNat = bs.length := by
    rw [UInt64.toNat_ofNat', Nat.mod_eq_of_lt h]
  rw [vec, List.append_assoc, ReadsBack.u64.run_bind rfl, hcount]
  exact count_byte_run bs rest

/-- A vector encodes exactly when each of its elements does. -/
theorem isSome_encodeVecM {encode : α → Option (List UInt8)} {as : List α} :
    (encodeVecM encode as).isSome ↔ ∀ a ∈ as, (encode a).isSome := by
  have hmap : (as.mapM encode).isSome ↔ ∀ a ∈ as, (encode a).isSome := by
    rw [← not_iff_not, Option.not_isSome_iff_eq_none, mapM_eq_none_iff]
    simp
  rw [← hmap, encodeVecM]
  cases as.mapM encode <;> rfl

/-! ## Lengths of encodings -/

/-- Each element's encoding is a part of the concatenated encodings of a sequence. -/
theorem length_le_of_mem_mapM {encode : α → Option (List UInt8)} :
    ∀ {l : List α} {encoded : List (List UInt8)}, l.mapM encode = some encoded →
      ∀ a ∈ l, ∃ bytes, encode a = some bytes ∧ bytes.length ≤ encoded.flatten.length
  | [], _, _, a, ha => absurd ha List.not_mem_nil
  | x :: l, encoded, h, a, ha => by
    simp only [List.mapM_cons, Option.bind_eq_bind, Option.bind_eq_some_iff, Option.pure_def,
      Option.some.injEq] at h
    obtain ⟨bytes, hx, rest, hl, rfl⟩ := h
    rw [List.flatten_cons, List.length_append]
    rcases List.mem_cons.1 ha with rfl | ha
    · exact ⟨bytes, hx, Nat.le_add_right _ _⟩
    · obtain ⟨b, hb, hle⟩ := length_le_of_mem_mapM hl a ha
      exact ⟨b, hb, by omega⟩

/-- Encodings that are never empty are together at least as long as the sequence. -/
theorem length_le_of_mapM {encode : α → Option (List UInt8)}
    (hne : ∀ a bytes, encode a = some bytes → bytes ≠ []) :
    ∀ {l : List α} {encoded : List (List UInt8)}, l.mapM encode = some encoded →
      l.length ≤ encoded.flatten.length
  | [], _, _ => Nat.zero_le _
  | x :: l, encoded, h => by
    simp only [List.mapM_cons, Option.bind_eq_bind, Option.bind_eq_some_iff, Option.pure_def,
      Option.some.injEq] at h
    obtain ⟨bytes, hx, rest, hl, rfl⟩ := h
    have hrest := length_le_of_mapM hne hl
    have hbytes := List.length_pos_of_ne_nil (hne x bytes hx)
    rw [List.flatten_cons, List.length_append, List.length_cons]
    omega

theorem length_le_of_encodeVecM {encode : α → Option (List UInt8)}
    (hne : ∀ a bytes, encode a = some bytes → bytes ≠ []) {as : List α} {bytes : List UInt8}
    (h : encodeVecM encode as = some bytes) : as.length ≤ bytes.length := by
  simp only [encodeVecM, Option.bind_eq_bind, Option.bind_eq_some_iff, Option.pure_def,
    Option.some.injEq] at h
  obtain ⟨encoded, hmap, rfl⟩ := h
  have := length_le_of_mapM hne hmap
  rw [List.length_append]
  omega

theorem length_le_of_mem_encodeVecM {encode : α → Option (List UInt8)} {as : List α}
    {bytes : List UInt8} (h : encodeVecM encode as = some bytes) {a : α} (ha : a ∈ as) :
    ∃ b, encode a = some b ∧ b.length ≤ bytes.length := by
  simp only [encodeVecM, Option.bind_eq_bind, Option.bind_eq_some_iff, Option.pure_def,
    Option.some.injEq] at h
  obtain ⟨encoded, hmap, rfl⟩ := h
  obtain ⟨b, hb, hle⟩ := length_le_of_mem_mapM hmap a ha
  exact ⟨b, hb, by rw [List.length_append]; omega⟩

/-- `option` reads back an optional value: the tag, then the value's encoding. -/
theorem ReadsBack.option {d : Decoder α} {encode : α → List UInt8}
    (h : ReadsBack d fun a => some (encode a)) :
    ReadsBack (option d) fun o => some (encodeOption encode o) := by
  intro o bytes hb rest
  cases hb
  cases o with
  | none => rfl
  | some a =>
    have hrun := h a _ rfl rest
    simp [Bincode.option, encodeOption, StateT.run_bind, StateT.run_map, hrun]

/-! ## Decoding reads an encoding

A decoder of fixed-width fields is canonical: the bytes it reads are the encoding of the value it
returns (`ReadsEncoding`), so a buffer it decodes is that encoding followed by the rest.  With
`ReadsBack`, this pins down what decoding a buffer that was written over can return. -/

/-- What `d` reads is the encoding of the value it returns. -/
def ReadsEncoding (d : Decoder α) (encode : α → List UInt8) : Prop :=
  ∀ bs a rest, d.run bs = some (a, rest) → bs = encode a ++ rest

theorem toLittleEndian_ofLittleEndian :
    ∀ bs : List UInt8, toLittleEndian bs.length (ofLittleEndian bs) = bs
  | [] => rfl
  | b :: bs => by
    have hb := b.toNat_lt
    have hrest := toLittleEndian_ofLittleEndian bs
    simp only [List.length_cons, toLittleEndian_succ, ofLittleEndian, List.foldr_cons] at hrest ⊢
    have hlow : (b.toNat + 256 * bs.foldr (fun b acc => b.toNat + 256 * acc) 0) % 256 = b.toNat := by
      omega
    have hhigh : (b.toNat + 256 * bs.foldr (fun b acc => b.toNat + 256 * acc) 0) / 256 =
        bs.foldr (fun b acc => b.toNat + 256 * acc) 0 := by
      omega
    rw [hlow, hhigh, hrest, UInt8.ofNat_toNat]

theorem ofLittleEndian_lt : ∀ bs : List UInt8, ofLittleEndian bs < 256 ^ bs.length
  | [] => by simp [ofLittleEndian]
  | b :: bs => by
    have hb := b.toNat_lt
    have hrest := ofLittleEndian_lt bs
    simp only [ofLittleEndian, List.foldr_cons, List.length_cons, Nat.pow_succ] at hrest ⊢
    nlinarith

theorem ReadsEncoding.byte : ReadsEncoding byte fun b => [b] := by
  intro bs a rest h
  cases bs with
  | nil => cases h
  | cons b bs =>
    cases h
    rfl

theorem ReadsEncoding.array (n : Nat) : ReadsEncoding (array n) fun v => v.toList := by
  intro bs v rest h
  simp only [StateT.run, Bincode.array] at h
  split_ifs at h with hn
  cases h
  simp

theorem bytes_run_eq_some {n : Nat} {bs l rest : List UInt8} (h : (bytes n).run bs = some (l, rest)) :
    bs = l ++ rest ∧ l.length = n := by
  simp only [StateT.run, Bincode.bytes] at h
  split_ifs at h with hn
  cases h
  exact ⟨(List.take_append_drop n bs).symm, by simp; omega⟩

theorem ReadsEncoding.u64 : ReadsEncoding u64 encodeU64 := by
  intro bs x rest h
  rw [Bincode.u64, StateT.run_bind] at h
  cases hb : (bytes 8).run bs with
  | none =>
    rw [hb] at h
    cases h
  | some p =>
    obtain ⟨l, mid⟩ := p
    rw [hb] at h
    cases h
    obtain ⟨rfl, hlen⟩ := bytes_run_eq_some hb
    -- the eight bytes are the little-endian digits of the value they stand for
    have hlt : ofLittleEndian l < 2 ^ 64 := by
      have := ofLittleEndian_lt l
      rw [hlen] at this
      simpa using this
    unfold encodeU64
    rw [UInt64.toNat_ofNat', Nat.mod_eq_of_lt hlt, ← hlen, toLittleEndian_ofLittleEndian]

/-- A decoder that reads an encoding, followed by more: the value read and what follows it. -/
theorem ReadsEncoding.run_bind {d : Decoder α} {encode : α → List UInt8} (h : ReadsEncoding d encode)
    {f : α → Decoder β} {bs rest : List UInt8} {b : β} (hrun : (d >>= f).run bs = some (b, rest)) :
    ∃ a mid, bs = encode a ++ mid ∧ (f a).run mid = some (b, rest) := by
  rw [StateT.run_bind] at hrun
  cases hd : d.run bs with
  | none =>
    rw [hd] at hrun
    cases hrun
  | some p =>
    obtain ⟨a, mid⟩ := p
    rw [hd] at hrun
    exact ⟨a, mid, h bs a mid hd, hrun⟩

theorem ReadsEncoding.map {d : Decoder α} {encode : α → List UInt8} (h : ReadsEncoding d encode)
    (f : α → β) (g : β → α) (hgf : ∀ a, g (f a) = a) : ReadsEncoding (f <$> d) (encode ∘ g) := by
  intro bs b rest hrun
  rw [StateT.run_map] at hrun
  cases hd : d.run bs with
  | none =>
    rw [hd] at hrun
    cases hrun
  | some p =>
    obtain ⟨a, mid⟩ := p
    rw [hd] at hrun
    cases hrun
    simpa [hgf] using h bs a mid hd

theorem ReadsEncoding.option {d : Decoder α} {encode : α → List UInt8} (h : ReadsEncoding d encode) :
    ReadsEncoding (option d) (encodeOption encode) := by
  intro bs o rest hrun
  obtain ⟨tag, mid, rfl, htag⟩ := ReadsEncoding.byte.run_bind hrun
  split at htag
  · -- `None`: the tag alone
    cases htag
    rfl
  · -- `Some`: the tag, then the value's encoding
    rw [StateT.run_map] at htag
    cases hd : d.run mid with
    | none =>
      rw [hd] at htag
      cases htag
    | some p =>
      obtain ⟨a, mid'⟩ := p
      rw [hd] at htag
      cases htag
      rw [h mid a mid' hd]
      rfl
  · cases htag

end Bincode
