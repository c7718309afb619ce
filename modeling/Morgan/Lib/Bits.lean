import Mathlib.Tactic.NormNum.Basic

/-!
# Bit counting and saturating arithmetic on machine words

The integer primitives of Rust's `u32` and `u64` that power-of-two arithmetic uses:
`trailing_zeros`, `next_power_of_two`, `pow` of two and the saturating subtractions, in release
semantics (an overflowing `next_power_of_two` or `pow` wraps to `0`).  Each comes with its value
over `Nat` under the bound that keeps it from wrapping: `toNat_trailingZeros` for a power of two,
`toNat_nextPowerOfTwo`, `toNat_pow2`, and `toNat_saturatingSub32`/`toNat_saturatingSub64`,
which are truncated subtraction.
-/

namespace Rust

/-- The trailing zero bits of `n`, counting at most `fuel` of them. -/
def trailingZerosAux : Nat → Nat → Nat
  | 0, _ => 0
  | fuel + 1, n => if n % 2 = 0 then trailingZerosAux fuel (n / 2) + 1 else 0

/-- `u64::trailing_zeros`: `64` for zero. -/
def trailingZeros (x : UInt64) : UInt32 := UInt32.ofNat (trailingZerosAux 64 x.toNat)

/-- `u64::next_power_of_two`, the least power of two at or above `x`; past `2 ^ 63` it wraps to
`0` as a release build does. -/
def nextPowerOfTwo (x : UInt64) : UInt64 :=
  if x ≤ 1 then 1 else UInt64.ofNat (2 ^ (Nat.log2 (x.toNat - 1) + 1))

/-- `2u64.pow(exp)`, wrapping to `0` from `2 ^ 64` on. -/
def pow2 (exp : UInt32) : UInt64 := if exp.toNat < 64 then UInt64.ofNat (2 ^ exp.toNat) else 0

/-- `u32::saturating_sub`. -/
def saturatingSub32 (a b : UInt32) : UInt32 := if a ≤ b then 0 else a - b

/-- `u64::saturating_sub`. -/
def saturatingSub64 (a b : UInt64) : UInt64 := if a ≤ b then 0 else a - b

/-- A power of two `2 ^ k` has `k` trailing zeros, given the fuel to count them. -/
theorem trailingZerosAux_two_pow : ∀ {fuel k : Nat}, k ≤ fuel → trailingZerosAux fuel (2 ^ k) = k
  | 0, 0, _ => rfl
  | _ + 1, 0, _ => rfl
  | fuel + 1, k + 1, h => by
    have heven : 2 ^ (k + 1) % 2 = 0 := by rw [Nat.pow_succ]; simp
    rw [trailingZerosAux, if_pos heven, Nat.pow_succ, Nat.mul_div_cancel _ (by norm_num),
      trailingZerosAux_two_pow (by omega)]

theorem toNat_trailingZeros {x : UInt64} {k : Nat} (hx : x.toNat = 2 ^ k) (hk : k < 64) :
    (trailingZeros x).toNat = k := by
  rw [trailingZeros, hx, trailingZerosAux_two_pow (by omega), UInt32.toNat_ofNat',
    Nat.mod_eq_of_lt (by omega)]

theorem toNat_nextPowerOfTwo {x : UInt64} (h₁ : 2 ≤ x.toNat) (h₂ : x.toNat ≤ 2 ^ 63) :
    (nextPowerOfTwo x).toNat = 2 ^ (Nat.log2 (x.toNat - 1) + 1) := by
  have hlog : Nat.log2 (x.toNat - 1) < 63 := (Nat.log2_lt (by omega)).2 (by omega)
  have hlt : 2 ^ (Nat.log2 (x.toNat - 1) + 1) < 2 ^ 64 :=
    Nat.pow_lt_pow_right (by norm_num) (by omega)
  have hgt : ¬ x ≤ 1 := by
    rw [UInt64.le_iff_toNat_le]
    simp
    omega
  rw [nextPowerOfTwo, if_neg hgt, UInt64.toNat_ofNat', Nat.mod_eq_of_lt hlt]

theorem toNat_pow2 {exp : UInt32} (h : exp.toNat < 64) : (pow2 exp).toNat = 2 ^ exp.toNat := by
  have hlt : 2 ^ exp.toNat < 2 ^ 64 := Nat.pow_lt_pow_right (by norm_num) h
  rw [pow2, if_pos h, UInt64.toNat_ofNat', Nat.mod_eq_of_lt hlt]

theorem toNat_saturatingSub32 (a b : UInt32) :
    (saturatingSub32 a b).toNat = a.toNat - b.toNat := by
  unfold saturatingSub32
  split_ifs with hle
  · rw [UInt32.le_iff_toNat_le] at hle
    simp only [UInt32.toNat_zero]
    omega
  · rw [UInt32.toNat_sub_of_le _ _ (UInt32.le_of_lt (UInt32.not_le.1 hle))]

theorem toNat_saturatingSub64 (a b : UInt64) :
    (saturatingSub64 a b).toNat = a.toNat - b.toNat := by
  unfold saturatingSub64
  split_ifs with hle
  · rw [UInt64.le_iff_toNat_le] at hle
    simp only [UInt64.toNat_zero]
    omega
  · rw [UInt64.toNat_sub_of_le _ _ (UInt64.le_of_lt (UInt64.not_le.1 hle))]

end Rust
