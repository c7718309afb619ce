import Mathlib.Algebra.Order.Floor.Ring
import Mathlib.Data.Rat.Floor

/-!
# Binary64 arithmetic

Rust's `f64` as the exact rational value of a double: each operation computes the exact result
and rounds it to the nearest double, ties to even, as IEEE 754 prescribes.  A positive rational
`n / d` rounds at the exponent `e` of its last place (`ulpExponent`): that of a 53-bit
significand, and at least `-1074`, where the subnormals are; the significand is the quotient of
`n / d` by `2 ^ e` rounded half to even (`roundHalfEven`).  Everything is computed with `Nat`
and `ℚ`, so a model built on it evaluates by `decide +kernel`.

Three things of IEEE 754 are left out, and the computations this library is written for (products
and quotients of a few `u64`-sized factors by nonzero constants) reach none of them: the
exponent is unbounded above, so no result overflows to an infinity; there is no negative zero;
and a division by zero gives `0`, not an infinity or a NaN.

`as u64` (`F64.toU64`) truncates towards zero and saturates, as Rust's casts do.

On `[1/2, 1)` the last place is `2 ^ -53`, so a quotient there lies above the double
`m / 2 ^ 53`, for an odd `m`, exactly when it reaches the midpoint above `m`
(`lt_roundToDouble_iff`); below one half it rounds to at most one half.
-/

namespace Rust

/-- `num / den` rounded to the nearest integer, ties to even. -/
def roundHalfEven (num den : Nat) : Nat :=
  let q := num / den
  let r := num % den
  if den < 2 * r ∨ (2 * r = den ∧ q % 2 = 1) then q + 1 else q

/-- `⌊log₂ (n / d)⌋` for positive `n` and `d`: the difference of the bit lengths, or one less. -/
def floorLog2 (n d : Nat) : Int :=
  let k : Int := (Nat.log2 n : Int) - Nat.log2 d
  if 0 ≤ k then (if d * 2 ^ k.toNat ≤ n then k else k - 1)
  else (if d ≤ n * 2 ^ (-k).toNat then k else k - 1)

/-- The exponent of the last place of the doubles around `n / d`. -/
def ulpExponent (n d : Nat) : Int := max (floorLog2 n d - 52) (-1074)

/-- `n / d` rounded to a double, for `n / d ≥ 0`. -/
def roundPos (n d : Nat) : ℚ :=
  let e := ulpExponent n d
  if 0 ≤ e then (roundHalfEven n (d * 2 ^ e.toNat) : ℚ) * 2 ^ e.toNat
  else (roundHalfEven (n * 2 ^ (-e).toNat) d : ℚ) / 2 ^ (-e).toNat

/-- A rational rounded to the nearest double, ties to even. -/
def roundToDouble (q : ℚ) : ℚ :=
  if 0 ≤ q then roundPos q.num.toNat q.den else -roundPos (-q).num.toNat (-q).den

theorem roundHalfEven_one (m : Nat) : roundHalfEven m 1 = m := by
  simp [roundHalfEven, Nat.mod_one]

/-- An integer's last place is at most that of its own bit length. -/
theorem floorLog2_one_le (n : Nat) : floorLog2 n 1 ≤ Nat.log2 n := by
  have hone : Nat.log2 1 = 0 := by decide
  unfold floorLog2
  simp only [hone, Nat.cast_zero, sub_zero]
  split_ifs <;> omega

/-- An integer below `2 ^ 53` is a double. -/
theorem roundPos_of_lt {n : Nat} (h : n < 2 ^ 53) : roundPos n 1 = n := by
  have hlog : Nat.log2 n ≤ 52 := by
    rcases Nat.eq_zero_or_pos n with rfl | hpos
    · simp
    · have := (Nat.log2_lt (Nat.pos_iff_ne_zero.1 hpos)).2 h
      omega
  have he : ulpExponent n 1 ≤ 0 := by
    have := floorLog2_one_le n
    unfold ulpExponent
    omega
  unfold roundPos
  dsimp only
  split_ifs with hnonneg
  · -- the last place is the units': nothing to round
    have hzero : (ulpExponent n 1).toNat = 0 := by omega
    simp [hzero, roundHalfEven_one]
  · -- a last place below the units: the scaled integer is exact
    rw [roundHalfEven_one]
    push_cast
    field_simp

/-- Rounding does not pass an integer that lies above the quotient. -/
theorem roundHalfEven_le {num den m : Nat} (h : num < den * m) : roundHalfEven num den ≤ m := by
  have hq : num / den < m := Nat.div_lt_of_lt_mul h
  unfold roundHalfEven
  dsimp only
  split_ifs <;> omega

/-- An odd integer lies below the rounded quotient exactly when the quotient reaches the midpoint
above it: the tie at the midpoint goes to the even neighbour above. -/
theorem lt_roundHalfEven_iff {num den m : Nat} (hden : 0 < den) (hm : m % 2 = 1) :
    m < roundHalfEven num den ↔ (2 * m + 1) * den ≤ 2 * num := by
  have hdiv := Nat.div_add_mod num den
  have hmod := Nat.mod_lt num hden
  unfold roundHalfEven
  dsimp only
  generalize num / den = q at hdiv ⊢
  generalize num % den = r at hdiv hmod ⊢
  subst hdiv
  rcases lt_trichotomy m q with hlt | rfl | hgt
  · have : (m + 1) * den ≤ q * den := Nat.mul_le_mul_right den hlt
    constructor
    · intro _
      nlinarith
    · intro _
      split_ifs <;> omega
  · constructor
    · intro h
      split_ifs at h with hup
      · have : den ≤ 2 * r := by omega
        nlinarith
      · omega
    · intro h
      have : den ≤ 2 * r := by nlinarith
      split_ifs with hup
      · omega
      · omega
  · have : (q + 1) * den ≤ m * den := Nat.mul_le_mul_right den hgt
    constructor
    · intro h
      split_ifs at h <;> omega
    · intro h
      nlinarith

/-- A quotient below one has its leading bit below the units. -/
theorem floorLog2_le_neg_one {n d : Nat} (h : n < d) : floorLog2 n d ≤ -1 := by
  have hlog : Nat.log2 n ≤ Nat.log2 d := by
    rcases Nat.eq_zero_or_pos n with rfl | hn
    · simp
    · exact (Nat.le_log2 (by omega)).2 ((Nat.log2_self_le (by omega)).trans h.le)
  unfold floorLog2
  dsimp only
  split_ifs with hk hle hle'
  · have hk0 : (Nat.log2 n : Int) - Nat.log2 d = 0 := by omega
    rw [hk0] at hle
    simp at hle
    omega
  · omega
  · omega
  · omega

/-- A quotient in `[1/2, 1)` has its leading bit at `2 ^ -1`. -/
theorem floorLog2_of_half_le {n d : Nat} (hd : d ≤ 2 * n) (hn : n < d) : floorLog2 n d = -1 := by
  have hn0 : n ≠ 0 := by omega
  have hlog : Nat.log2 n ≤ Nat.log2 d :=
    (Nat.le_log2 (by omega)).2 ((Nat.log2_self_le hn0).trans hn.le)
  have hlog' : Nat.log2 d < Nat.log2 n + 2 := by
    refine (Nat.log2_lt (by omega)).2 ?_
    have := Nat.lt_log2_self (n := n)
    rw [Nat.pow_succ]
    omega
  have hle := floorLog2_le_neg_one hn
  unfold floorLog2 at hle ⊢
  dsimp only at hle ⊢
  split_ifs at hle ⊢ with hk hle₁ hle₂ <;> try omega
  have hk' : (Nat.log2 n : Int) - Nat.log2 d = -1 := by omega
  rw [hk'] at hle₂
  simp at hle₂
  omega

/-- On `[1/2, 1)` the last place of a double is `2 ^ -53`. -/
theorem roundPos_of_half_le {n d : Nat} (hd : d ≤ 2 * n) (hn : n < d) :
    roundPos n d = (roundHalfEven (n * 2 ^ 53) d : ℚ) / 2 ^ 53 := by
  have he : ulpExponent n d = -53 := by
    unfold ulpExponent
    rw [floorLog2_of_half_le hd hn]
    decide
  unfold roundPos
  dsimp only
  rw [he, if_neg (by decide)]
  rfl

/-- A quotient below one half rounds to at most one half. -/
theorem roundPos_le_half {n d : Nat} (h : 2 * n < d) : roundPos n d ≤ 1 / 2 := by
  have he : ulpExponent n d ≤ -53 := by
    have := floorLog2_le_neg_one (n := n) (d := d) (by omega)
    unfold ulpExponent
    omega
  obtain ⟨k, hk⟩ : ∃ k, (-ulpExponent n d).toNat = k + 1 :=
    ⟨(-ulpExponent n d).toNat - 1, by omega⟩
  have hround : roundHalfEven (n * 2 ^ (k + 1)) d ≤ 2 ^ k := by
    apply roundHalfEven_le
    calc n * 2 ^ (k + 1) = 2 * n * 2 ^ k := by ring
      _ < d * 2 ^ k := Nat.mul_lt_mul_of_pos_right h (by positivity)
  unfold roundPos
  dsimp only
  rw [if_neg (by omega), hk, div_le_iff₀ (by positivity)]
  calc (roundHalfEven (n * 2 ^ (k + 1)) d : ℚ) ≤ 2 ^ k := by exact_mod_cast hround
    _ = 1 / 2 * 2 ^ (k + 1) := by ring

theorem roundToDouble_of_nonneg {q : ℚ} (hq : 0 ≤ q) :
    roundToDouble q = roundPos q.num.toNat q.den :=
  if_pos hq

/-- A nonnegative rational is its numerator, a natural number, over its denominator. -/
theorem num_toNat_div_den {q : ℚ} (hq : 0 ≤ q) : (q.num.toNat : ℚ) / q.den = q := by
  have hnum : (q.num.toNat : ℚ) = q.num := by
    have h := Int.toNat_of_nonneg (Rat.num_nonneg.2 hq)
    exact_mod_cast h
  rw [hnum]
  exact Rat.num_div_den q

theorem roundToDouble_one : roundToDouble 1 = 1 := by
  simp [roundToDouble, roundPos_of_lt]

/-- A quotient below one half rounds to at most one half. -/
theorem roundToDouble_le_half {q : ℚ} (h0 : 0 ≤ q) (h : q < 1 / 2) : roundToDouble q ≤ 1 / 2 := by
  have hd : (0 : ℚ) < q.den := by exact_mod_cast q.den_pos
  rw [← num_toNat_div_den h0, div_lt_iff₀ hd] at h
  rw [roundToDouble_of_nonneg h0]
  apply roundPos_le_half
  exact_mod_cast (by linarith : (2 * q.num.toNat : ℚ) < q.den)

/-- On `[1/2, 1)` a quotient rounds above the double `m / 2 ^ 53`, `m` odd, exactly when it
reaches the midpoint `(2m + 1) / 2 ^ 54` above it. -/
theorem lt_roundToDouble_iff {q : ℚ} {m : Nat} (h0 : 1 / 2 ≤ q) (h1 : q < 1) (hm : m % 2 = 1) :
    (m : ℚ) / 2 ^ 53 < roundToDouble q ↔ (2 * m + 1 : ℚ) / 2 ^ 54 ≤ q := by
  have hq := num_toNat_div_den (q := q) (by linarith)
  have hd : (0 : ℚ) < q.den := by exact_mod_cast q.den_pos
  have hhalf : q.den ≤ 2 * q.num.toNat := by
    rw [← hq, le_div_iff₀ hd] at h0
    exact_mod_cast (by linarith : (q.den : ℚ) ≤ 2 * q.num.toNat)
  have hlt : q.num.toNat < q.den := by
    rw [← hq, div_lt_iff₀ hd] at h1
    exact_mod_cast (by linarith : (q.num.toNat : ℚ) < q.den)
  rw [roundToDouble_of_nonneg (by linarith), roundPos_of_half_le hhalf hlt,
    div_lt_div_iff_of_pos_right (by positivity), Nat.cast_lt, lt_roundHalfEven_iff q.den_pos hm]
  conv_rhs => rw [← hq, div_le_div_iff₀ (by positivity) hd]
  rw [← @Nat.cast_le ℚ]
  push_cast
  constructor <;> intro h <;> linarith

/-- `f64`: the value of a double. -/
structure F64 where
  val : ℚ
  deriving DecidableEq

namespace F64

/-- `0.0`. -/
def zero : F64 := ⟨0⟩

/-- A literal, or `as f64` of an integer: the nearest double. -/
def ofRat (q : ℚ) : F64 := ⟨roundToDouble q⟩

/-- `n as f64` and `f64::from(n)`. -/
def ofNat (n : Nat) : F64 := ofRat n

instance : Add F64 := ⟨fun a b => ofRat (a.val + b.val)⟩
instance : Sub F64 := ⟨fun a b => ofRat (a.val - b.val)⟩
instance : Mul F64 := ⟨fun a b => ofRat (a.val * b.val)⟩
instance : Div F64 := ⟨fun a b => ofRat (a.val / b.val)⟩
instance : LT F64 := ⟨fun a b => a.val < b.val⟩
instance : LE F64 := ⟨fun a b => a.val ≤ b.val⟩

instance (a b : F64) : Decidable (a < b) := inferInstanceAs (Decidable (a.val < b.val))
instance (a b : F64) : Decidable (a ≤ b) := inferInstanceAs (Decidable (a.val ≤ b.val))

/-- `x as u64`: towards zero, with what lies below `0` at `0` and what lies past `u64::MAX` at
`u64::MAX`. -/
def toU64 (x : F64) : UInt64 :=
  if x.val ≤ 0 then 0
  else if (2 ^ 64 : ℚ) ≤ x.val then 0xFFFFFFFFFFFFFFFF
  else UInt64.ofNat ⌊x.val⌋.toNat

/-- `n as f64` is exact below `2 ^ 53`. -/
theorem val_ofNat {n : Nat} (h : n < 2 ^ 53) : (ofNat n).val = n := by
  simp only [ofNat, ofRat, roundToDouble, Nat.cast_nonneg, if_true, Rat.num_natCast,
    Rat.den_natCast, Int.toNat_natCast]
  exact roundPos_of_lt h

theorem toU64_zero : zero.toU64 = 0 := by
  simp [toU64, zero]

/-- A value of at least one does not truncate to zero. -/
theorem toU64_ne_zero {x : F64} (h : 1 ≤ x.val) : x.toU64 ≠ 0 := by
  have hpos : ¬ x.val ≤ 0 := by
    intro hle
    linarith
  unfold toU64
  rw [if_neg hpos]
  split_ifs with hbig
  · decide
  · -- below `2 ^ 64` the floor is a `u64` of at least one
    have hfloor : 1 ≤ ⌊x.val⌋ := Int.le_floor.2 (by simpa using h)
    have hlt : ⌊x.val⌋ < 2 ^ 64 := Int.floor_lt.2 (by push_cast; linarith)
    intro hzero
    have := congrArg UInt64.toNat hzero
    rw [UInt64.toNat_ofNat', UInt64.toNat_zero] at this
    omega

end F64

end Rust
