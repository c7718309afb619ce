import Mathlib.Data.Nat.Bitwise
import Morgan.Lib.Bincode

/-!
# Compact lengths

`short_vec.rs`: a `ShortU16` is a `u16` written seven bits a byte, least significant group
first, with the top bit set on every byte but the last.  It prefixes every vector of a
transaction.  Decoding runs `ShortLenVisitor::visit_seq` over a bincode tuple of three elements:
a fourth byte is never read, and a third byte with its top bit set is an error.  The visitor
accumulates into a `usize` and truncates with `len as u16`, so three-byte encodings of values of
`2^16` and more are accepted and wrap around.

`decode_len` unwraps the decoded value, panicking on a bad encoding, and reports the number of
bytes of the value's *canonical* encoding, which is the number of bytes it read only when the input
was canonical.

The decoder reads back the encoder on every `u16` (`readsBack_shortU16`), and a `short_vec` of
elements read back one by one is read back whole (`readsBack_shortVec`).  It is not the encoder's
inverse on all bytes: a group of zero bits after a continuation byte, and a third byte above 3, are
accepted (`shortU16_decoder_accepts_noncanonical`).  Encoding a vector fails exactly on more than
`u16::MAX` elements or on an element that fails (`serializeShortVec_eq_none_iff`).
-/

namespace Morgan

namespace ShortVec

open Bincode

/-- The loop of `ShortU16::serialize` with at most `fuel` iterations. -/
def serializeLoop : Nat → UInt16 → List UInt8
  | 0, _ => []
  | fuel + 1, remLen =>
    let elem := (remLen &&& 0x7f).toUInt8
    let remLen := remLen >>> 7
    if remLen = 0 then [elem] else (elem ||| 0x80) :: serializeLoop fuel remLen

/-- `ShortU16::serialize`: three iterations always end the loop, since `u16 >> 21 = 0`. -/
def serializeShortU16 (value : UInt16) : List UInt8 := serializeLoop 3 value

/-- The loop of `ShortLenVisitor::visit_seq`, reading from a tuple access with `remaining`
elements left; `next_element` returning `None` is the `invalid_length` error. -/
def visitLoop : Nat → Nat → Nat → Decoder UInt16
  | 0, _, _ => failure
  | remaining + 1, len, size => do
    let elem ← byte
    let len := len ||| ((elem.toNat &&& 0x7f) <<< (size * 7))
    let size := size + 1
    if elem.toNat &&& 0x80 = 0 then pure (UInt16.ofNat len)
    else if size > 3 then failure
    else visitLoop remaining len size

/-- `ShortU16::deserialize`: `deserialize_tuple(3, ShortLenVisitor)`. -/
def deserializeShortU16 : Decoder UInt16 := visitLoop 3 0 0

/-- `decode_len`: the decoded length and the size of its canonical encoding; `none` is the panic
of the `unwrap`. -/
def decodeLen (bytes : List UInt8) : Option (Nat × Nat) := do
  let shortLen ← Bincode.deserialize deserializeShortU16 bytes
  pure (shortLen.toNat, (serializeShortU16 shortLen).length)

variable {α : Type}

/-- `short_vec::deserialize`: a `ShortU16` count, then that many elements. -/
def deserializeShortVec (d : Decoder α) : Decoder (List α) := do
  let shortLen ← deserializeShortU16
  count d shortLen.toNat

/-- `short_vec::serialize` with a fallible element serializer; `none` is an error, among them the
one on more than `u16::MAX` elements. -/
def serializeShortVec (encode : α → Option (List UInt8)) (elements : List α) :
    Option (List UInt8) :=
  if elements.length > 65535 then none
  else do
    let encoded ← elements.mapM encode
    pure (serializeShortU16 (UInt16.ofNat elements.length) ++ encoded.flatten)

/-! ## Bytes as numbers -/

theorem land_0x80_eq_zero {n : Nat} (h : n < 256) : n &&& 0x80 = 0 ↔ n < 128 := by
  rw [show (0x80 : Nat) = 2 ^ 7 by rfl, Nat.and_two_pow, Nat.testBit_eq_decide_div_mod_eq]
  by_cases hn : n < 128 <;> simp [hn] <;> omega

/-- One step of the visitor's accumulator: the seven low bits of the byte land above `len`. -/
theorem accumulate_eq {len : Nat} (size : Nat) (b : UInt8) (h : len < 2 ^ (size * 7)) :
    len ||| ((b.toNat &&& 0x7f) <<< (size * 7)) = len + b.toNat % 128 * 2 ^ (size * 7) := by
  rw [show (0x7f : Nat) = 2 ^ 7 - 1 by rfl, Nat.and_two_pow_sub_one_eq_mod, Nat.shiftLeft_eq,
    Nat.or_comm, Nat.mul_comm, ← Nat.two_pow_add_eq_or_of_lt h, Nat.add_comm, Nat.mul_comm]

theorem toNat_low_bits (v : UInt16) : (v &&& 0x7f).toUInt8.toNat = v.toNat % 128 := by
  rw [UInt16.toNat_toUInt8, UInt16.toNat_and,
    show (0x7f : UInt16).toNat = 2 ^ 7 - 1 by rfl, Nat.and_two_pow_sub_one_eq_mod]
  omega

theorem toNat_shiftRight_seven (v : UInt16) : (v >>> 7).toNat = v.toNat / 128 := by
  simp [UInt16.toNat_shiftRight, Nat.shiftRight_eq_div_pow]

theorem toNat_or_0x80 (e : UInt8) (h : e.toNat < 128) : (e ||| 0x80).toNat = e.toNat + 128 := by
  rw [UInt8.toNat_or]
  have hor := Nat.two_pow_add_eq_or_of_lt (i := 7) h 1
  simp only [Nat.mul_one] at hor
  show e.toNat ||| 128 = e.toNat + 128
  rw [Nat.or_comm, ← hor, Nat.add_comm]

/-! ## Encoding -/

/-- One iteration of the encoding loop. -/
theorem serializeLoop_succ (fuel : Nat) (v : UInt16) :
    serializeLoop (fuel + 1) v =
      if v.toNat < 128 then [UInt8.ofNat v.toNat]
      else UInt8.ofNat (v.toNat % 128 + 128) :: serializeLoop fuel (v >>> 7) := by
  have hlow : (v &&& 0x7f).toUInt8.toNat < 128 := by rw [toNat_low_bits]; omega
  have hshift : v >>> 7 = 0 ↔ v.toNat < 128 := by
    rw [← UInt16.toNat_inj, toNat_shiftRight_seven]
    simp
  simp only [serializeLoop, hshift]
  split_ifs with h
  · congr 1
    apply UInt8.toNat_inj.1
    rw [toNat_low_bits, UInt8.toNat_ofNat']
    omega
  · congr 1
    apply UInt8.toNat_inj.1
    rw [toNat_or_0x80 _ hlow, toNat_low_bits, UInt8.toNat_ofNat']
    omega

/-- The encoding of a `u16`: one, two or three bytes. -/
theorem serializeShortU16_eq (v : UInt16) :
    serializeShortU16 v =
      if v.toNat < 128 then [UInt8.ofNat v.toNat]
      else if v.toNat < 16384 then [UInt8.ofNat (v.toNat % 128 + 128), UInt8.ofNat (v.toNat / 128)]
      else [UInt8.ofNat (v.toNat % 128 + 128), UInt8.ofNat (v.toNat / 128 % 128 + 128),
        UInt8.ofNat (v.toNat / 16384)] := by
  have h₁ := toNat_shiftRight_seven v
  have h₂ := toNat_shiftRight_seven (v >>> 7)
  have hv := v.toNat_lt
  rw [serializeShortU16, serializeLoop_succ, serializeLoop_succ, serializeLoop_succ, h₁, h₂]
  split_ifs <;> simp_all [Nat.div_div_eq_div_mul] <;> omega

theorem length_serializeShortU16 (v : UInt16) :
    (serializeShortU16 v).length = if v.toNat < 128 then 1 else if v.toNat < 16384 then 2 else 3 := by
  rw [serializeShortU16_eq]
  split_ifs <;> rfl

/-! ## Decoding -/

/-- One iteration of the decoding loop on a byte. -/
theorem visitLoop_cons (remaining len size : Nat) (b : UInt8) (rest : List UInt8) :
    (visitLoop (remaining + 1) len size).run (b :: rest) =
      if b.toNat &&& 0x80 = 0 then
        some (UInt16.ofNat (len ||| ((b.toNat &&& 0x7f) <<< (size * 7))), rest)
      else if size + 1 > 3 then none
      else (visitLoop remaining (len ||| ((b.toNat &&& 0x7f) <<< (size * 7))) (size + 1)).run rest := by
  simp only [visitLoop, StateT.run_bind, byte_cons, Option.bind_eq_bind, Option.bind_some]
  split_ifs <;> rfl

theorem deserializeShortU16_one {b : UInt8} (hb : b.toNat < 128) (rest : List UInt8) :
    deserializeShortU16.run (b :: rest) = some (UInt16.ofNat b.toNat, rest) := by
  have hb' : b.toNat &&& 0x80 = 0 := (land_0x80_eq_zero b.toNat_lt).2 hb
  rw [deserializeShortU16, visitLoop_cons 2, if_pos hb', accumulate_eq 0 b (by omega)]
  simp [Nat.mod_eq_of_lt hb]

theorem deserializeShortU16_two {b₀ b₁ : UInt8} (h₀ : 128 ≤ b₀.toNat) (h₁ : b₁.toNat < 128)
    (rest : List UInt8) :
    deserializeShortU16.run (b₀ :: b₁ :: rest) =
      some (UInt16.ofNat (b₀.toNat % 128 + b₁.toNat * 128), rest) := by
  have h₀' : ¬ b₀.toNat &&& 0x80 = 0 := fun h => by
    have := (land_0x80_eq_zero b₀.toNat_lt).1 h
    omega
  have h₁' : b₁.toNat &&& 0x80 = 0 := (land_0x80_eq_zero b₁.toNat_lt).2 h₁
  rw [deserializeShortU16, visitLoop_cons 2, if_neg h₀', if_neg (by omega), visitLoop_cons 1,
    if_pos h₁', accumulate_eq 0 b₀ (by omega), accumulate_eq 1 b₁ (by simp; omega)]
  simp [Nat.mod_eq_of_lt h₁]

theorem deserializeShortU16_three {b₀ b₁ b₂ : UInt8} (h₀ : 128 ≤ b₀.toNat) (h₁ : 128 ≤ b₁.toNat)
    (h₂ : b₂.toNat < 128) (rest : List UInt8) :
    deserializeShortU16.run (b₀ :: b₁ :: b₂ :: rest) =
      some (UInt16.ofNat (b₀.toNat % 128 + b₁.toNat % 128 * 128 + b₂.toNat * 16384), rest) := by
  have h₀' : ¬ b₀.toNat &&& 0x80 = 0 := fun h => by
    have := (land_0x80_eq_zero b₀.toNat_lt).1 h
    omega
  have h₁' : ¬ b₁.toNat &&& 0x80 = 0 := fun h => by
    have := (land_0x80_eq_zero b₁.toNat_lt).1 h
    omega
  have h₂' : b₂.toNat &&& 0x80 = 0 := (land_0x80_eq_zero b₂.toNat_lt).2 h₂
  rw [deserializeShortU16, visitLoop_cons 2, if_neg h₀', if_neg (by omega), visitLoop_cons 1,
    if_neg h₁', if_neg (by omega), visitLoop_cons 0, if_pos h₂', accumulate_eq 0 b₀ (by omega),
    accumulate_eq 1 b₁ (by simp; omega), accumulate_eq 2 b₂ (by simp; omega)]
  simp [Nat.mod_eq_of_lt h₂]

/-- Three bytes with the top bit set: the tuple of three is exhausted before the value ends. -/
theorem deserializeShortU16_overlong {b₀ b₁ b₂ : UInt8} (h₀ : 128 ≤ b₀.toNat)
    (h₁ : 128 ≤ b₁.toNat) (h₂ : 128 ≤ b₂.toNat) (rest : List UInt8) :
    deserializeShortU16.run (b₀ :: b₁ :: b₂ :: rest) = none := by
  have hset : ∀ b : UInt8, 128 ≤ b.toNat → ¬ b.toNat &&& 0x80 = 0 := fun b hb h => by
    have := (land_0x80_eq_zero b.toNat_lt).1 h
    omega
  rw [deserializeShortU16, visitLoop_cons 2, if_neg (hset b₀ h₀), if_neg (by omega),
    visitLoop_cons 1, if_neg (hset b₁ h₁), if_neg (by omega), visitLoop_cons 0,
    if_neg (hset b₂ h₂), if_neg (by omega)]
  rfl

/-- The canonical encoding of every `u16` decodes back to it. -/
theorem readsBack_shortU16 : ReadsBack deserializeShortU16 fun v => some (serializeShortU16 v) := by
  intro v bytes h rest
  cases h
  have hv := v.toNat_lt
  have hofNat : ∀ n, n = v.toNat → UInt16.ofNat n = v := fun n hn => by
    apply UInt16.toNat_inj.1
    simp [hn]
  rw [serializeShortU16_eq]
  split_ifs with h₁ h₂
  · rw [List.singleton_append, deserializeShortU16_one (by simp; omega),
      hofNat _ (by simp; omega)]
  · rw [List.cons_append, List.singleton_append,
      deserializeShortU16_two (by simp; omega) (by simp; omega), hofNat _ (by simp; omega)]
  · rw [List.cons_append, List.cons_append, List.singleton_append,
      deserializeShortU16_three (by simp; omega) (by simp; omega) (by simp; omega),
      hofNat _ (by simp; omega)]

theorem decodeLen_eq_some {bytes rest : List UInt8} {v : UInt16}
    (h : deserializeShortU16.run bytes = some (v, rest)) :
    decodeLen bytes = some (v.toNat, (serializeShortU16 v).length) := by
  simp [decodeLen, deserialize_of_run h]

theorem decodeLen_eq_none {bytes : List UInt8} (h : deserializeShortU16.run bytes = none) :
    decodeLen bytes = none := by
  simp [decodeLen, Bincode.deserialize, h]

/-- A byte below `0x80` is a whole length. -/
theorem decodeLen_of_lt {b : UInt8} (hb : b.toNat < 128) (rest : List UInt8) :
    decodeLen (b :: rest) = some (b.toNat, 1) := by
  rw [decodeLen_eq_some (deserializeShortU16_one hb rest), length_serializeShortU16]
  simp [hb]

/-- The decoder accepts encodings that are not the encoder's: `80 00` is 0 with a redundant group
of zero bits, both bytes read, while the encoding of 0 is `00` and `decode_len` reports one byte;
`80 80 04` is `2 ^ 16`, which the cast to `u16` truncates to 0. -/
theorem shortU16_decoder_accepts_noncanonical :
    deserializeShortU16.run [0x80, 0x00] = some (0, []) ∧ serializeShortU16 0 = [0x00] ∧
      decodeLen [0x80, 0x00] = some (0, 1) ∧
      deserializeShortU16.run [0x80, 0x80, 0x04] = some (0, []) := by
  decide

/-- A `short_vec` whose elements are read back is read back whole. -/
theorem readsBack_shortVec {d : Decoder α} {encode : α → Option (List UInt8)}
    (h : ReadsBack d encode) : ReadsBack (deserializeShortVec d) (serializeShortVec encode) := by
  intro l bytes hl rest
  unfold serializeShortVec at hl
  split_ifs at hl with hlen
  simp only [Option.bind_eq_bind, Option.bind_eq_some_iff, Option.pure_def,
    Option.some.injEq] at hl
  obtain ⟨encoded, hencoded, rfl⟩ := hl
  have hcount : (UInt16.ofNat l.length).toNat = l.length := by simp; omega
  rw [deserializeShortVec, List.append_assoc,
    readsBack_shortU16.run_bind (a := UInt16.ofNat l.length) rfl, hcount]
  exact h.count l encoded hencoded rest

theorem serializeShortVec_eq_none_iff {encode : α → Option (List UInt8)} {elements : List α} :
    serializeShortVec encode elements = none ↔
      65535 < elements.length ∨ ∃ a ∈ elements, encode a = none := by
  unfold serializeShortVec
  split_ifs with hlen
  · simp [hlen]
  · have hlen' : ¬ 65535 < elements.length := hlen
    simp only [hlen', false_or, ← mapM_eq_none_iff]
    cases elements.mapM encode <;> simp

/-- A vector of elements that always encode fails only on its length. -/
theorem serializeShortVec_total_eq_none_iff (f : α → List UInt8) (elements : List α) :
    serializeShortVec (fun a => some (f a)) elements = none ↔ 65535 < elements.length := by
  simp [serializeShortVec_eq_none_iff]

end ShortVec

end Morgan
