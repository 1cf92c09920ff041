import Mathlib.Data.Nat.Bitwise

/-!
# Arithmetic of machine words

Words are natural numbers below `2 ^ w`. The mask `2 ^ w - 2 ^ k` is the two's complement of `2 ^
k`: it clears the low `k` bits (`and_neg_two_pow`), which is how code rounds up to an alignment
(`align_up`). Two numbers are in the same multiple of a size if the smaller one leaves enough room
(`div_add_eq_iff`). Signed words are integers, and `toInt32` and `toInt16` are what remains of an
integer in such a word. `n & -n` is the lowest bit of `n` that is set (`and_neg_self`).
-/

set_option autoImplicit false

namespace CharmRuntime.Lib.Words

/-- Adding `d` does not change the quotient if and only if the remainder leaves room for it. -/
theorem div_add_eq_iff {S : Nat} (hS : 0 < S) (x d : Nat) : (x + d) / S = x / S ↔
    x % S + d < S := by
  have hx : S * (x / S) + x % S = x := Nat.div_add_mod x S
  have hsum : x + d = x % S + d + S * (x / S) := by omega
  rw [hsum, Nat.add_mul_div_left _ _ hS]
  constructor
  · intro h
    exact (Nat.div_eq_zero_iff_lt hS).1 (by omega)
  · intro h
    rw [Nat.div_eq_of_lt h, zero_add]

/-- The mask of an alignment clears the low bits. -/
theorem and_neg_two_pow {w k x : Nat} (hk : k ≤ w) (hx : x < 2 ^ w) :
    x &&& (2 ^ w - 2 ^ k) = x / 2 ^ k * 2 ^ k := by
  have hmask : 2 ^ w - 2 ^ k = (2 ^ (w - k) - 1) * 2 ^ k := by
    rw [Nat.sub_mul, one_mul, ← Nat.pow_add, Nat.sub_add_cancel hk]
  apply Nat.eq_of_testBit_eq
  intro i
  rw [hmask, Nat.testBit_and, Nat.testBit_mul_two_pow, Nat.testBit_mul_two_pow,
    Nat.testBit_two_pow_sub_one, Nat.testBit_div_two_pow]
  by_cases hi : k ≤ i
  · by_cases hw : i < w
    · have : i - k < w - k := by omega
      simp [hi, this, Nat.sub_add_cancel hi]
    · have hbit : x.testBit i = false :=
        Nat.testBit_lt_two_pow (lt_of_lt_of_le hx (Nat.pow_le_pow_right (by decide) (by omega)))
      simp [hbit, Nat.sub_add_cancel hi]
  · simp [hi]

/-- Rounding a word up to a multiple of `2 ^ k`, modulo `2 ^ w`, moves it by less than `2 ^ k`. -/
theorem align_up {w k : Nat} (hk : k ≤ w) (x : Nat) :
    ∃ d < 2 ^ k, ((x + 2 ^ k - 1) % 2 ^ w) &&& (2 ^ w - 2 ^ k) = (x + d) % 2 ^ w := by
  have hpos : 0 < 2 ^ k := Nat.two_pow_pos k
  obtain ⟨q, hq⟩ : ∃ q, 2 ^ w = 2 ^ k * q := Nat.pow_dvd_pow 2 hk
  rw [and_neg_two_pow hk (Nat.mod_lt _ (Nat.two_pow_pos w))]
  generalize 2 ^ k = a at *
  generalize 2 ^ w = W at *
  have hy := Nat.div_add_mod (x + a - 1) a
  have hr := Nat.mod_lt (x + a - 1) hpos
  refine ⟨a - 1 - (x + a - 1) % a, by omega, ?_⟩
  have hsum : x + (a - 1 - (x + a - 1) % a) = (x + a - 1) / a * a := by
    rw [mul_comm]
    omega
  rw [hsum, hq, Nat.mod_mul_right_div_self, mul_comm a q, Nat.mul_mod_mul_right]

/-- The signed word of 32 bits that an integer is reduced to. -/
def toInt32 (x : Int) : Int := (x + 2 ^ 31) % 2 ^ 32 - 2 ^ 31

theorem toInt32_of_range {x : Int} (hlo : -2 ^ 31 ≤ x) (hhi : x < 2 ^ 31) : toInt32 x = x := by
  rw [toInt32]
  omega

theorem toInt32_natCast {x : Nat} (hx : x < 2 ^ 31) : toInt32 x = x :=
  toInt32_of_range (by omega) (by omega)

theorem toInt32_bounds (x : Int) : -2 ^ 31 ≤ toInt32 x ∧ toInt32 x < 2 ^ 31 := by
  rw [toInt32]
  omega

/-- A sum may be reduced at the end. -/
theorem toInt32_add (x y : Int) : toInt32 (toInt32 x + y) = toInt32 (x + y) := by
  simp only [toInt32]
  omega

/-- The signed word of 16 bits that an integer is reduced to. -/
def toInt16 (x : Int) : Int := (x + 2 ^ 15) % 2 ^ 16 - 2 ^ 15

theorem toInt16_of_range {x : Int} (hlo : -2 ^ 15 ≤ x) (hhi : x < 2 ^ 15) : toInt16 x = x := by
  rw [toInt16]
  omega

theorem lt_of_odd_mul_lt {w k t : Nat} (hlt : (2 * k + 1) * 2 ^ t < 2 ^ w) : t < w :=
  (Nat.pow_lt_pow_iff_right (by decide)).1
    (lt_of_le_of_lt (Nat.le_mul_of_pos_left _ (by omega)) hlt)

/-- A number and its two's complement have only the lowest set bit in common. -/
theorem and_neg_self {w k t : Nat} (hlt : (2 * k + 1) * 2 ^ t < 2 ^ w) :
    (2 * k + 1) * 2 ^ t &&& (2 ^ w - (2 * k + 1) * 2 ^ t) = 2 ^ t := by
  have htw := lt_of_odd_mul_lt hlt
  -- above the lowest set bit the two numbers are complements of each other
  have hpred : (2 * k + 1) * 2 ^ t = 2 ^ t * (2 * k) + (2 ^ t - 1) + 1 := by
    rw [add_mul, one_mul, mul_comm (2 * k), add_assoc, Nat.sub_add_cancel (Nat.two_pow_pos t)]
  have hpos := Nat.two_pow_pos t
  apply Nat.eq_of_testBit_eq
  intro i
  rw [Nat.testBit_and, Nat.testBit_mul_two_pow, hpred, Nat.testBit_two_pow_sub_succ (by omega),
    Nat.testBit_two_pow_mul_add _ (by omega), Nat.testBit_two_pow]
  by_cases hi : t ≤ i
  · obtain ⟨j, rfl⟩ := Nat.exists_eq_add_of_le hi
    rw [Nat.add_sub_cancel_left]
    cases j with
    | zero => simp [htw]
    | succ j => simp +contextual [Nat.testBit_succ, show (2 * k + 1) / 2 = k by omega]
  · simp [hi, show ¬ t = i by omega]

end CharmRuntime.Lib.Words
