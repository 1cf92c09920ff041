import Mathlib.Data.Nat.Bitwise
import Mathlib.Data.Nat.Size

/-!
# Numbers made of bit fields

A list of fields, each a width and a value, makes one number; the first field of the list is in the
lowest bits (`packed`). If the values fit, the number fits into the sum of the widths (`packed_lt`),
and the values can be read back (`unpacked_packed`). If every value has the highest bit of its
field, the number has the highest bit of all (`two_pow_le_packed`). Two fields are joined by a shift
and an `or` (`shiftLeft_or`).

`smear` sets all bits below the highest one (`smear_eq`), by which code rounds up to a power of two.
-/

set_option autoImplicit false

namespace CharmRuntime.Lib.BitFields

open List

/-- Joining a high and a low field. -/
theorem shiftLeft_or {a b n : Nat} (hb : b < 2 ^ n) : a <<< n ||| b = a * 2 ^ n + b := by
  rw [← Nat.shiftLeft_add_eq_or_of_lt hb, Nat.shiftLeft_eq]

/-- A width and a value. -/
abbrev Field := Nat × Nat

/-- The number made of the fields, from the lowest bits up. -/
def packed : List Field → Nat
  | [] => 0
  | f :: fs => packed fs * 2 ^ f.1 + f.2

/-- The sum of the widths. -/
def width (fs : List Field) : Nat := (fs.map Prod.fst).sum

/-- The values of fields with the given widths. -/
def unpacked : List Nat → Nat → List Nat
  | [], _ => []
  | b :: bs, id => id % 2 ^ b :: unpacked bs (id / 2 ^ b)

/-- Every value is in the range of its field. -/
def Fit (fs : List Field) : Prop := ∀ f ∈ fs, f.2 < 2 ^ f.1

theorem width_cons (f : Field) (fs : List Field) : width (f :: fs) = f.1 + width fs := rfl

variable {fs : List Field}

theorem packed_lt (hfit : Fit fs) : packed fs < 2 ^ width fs := by
  induction fs with
  | nil => decide
  | cons f fs ih =>
    have hf : f.2 < 2 ^ f.1 := hfit f (mem_cons_self ..)
    have hrest : packed fs + 1 ≤ 2 ^ width fs := ih fun g hg => hfit g (mem_cons_of_mem _ hg)
    have hmul := Nat.mul_le_mul_right (2 ^ f.1) hrest
    rw [packed, width_cons, Nat.pow_add, mul_comm (2 ^ f.1)]
    rw [Nat.succ_mul] at hmul
    omega

theorem unpacked_packed (hfit : Fit fs) : unpacked (fs.map Prod.fst) (packed fs) =
    fs.map Prod.snd := by
  induction fs with
  | nil => rfl
  | cons f fs ih =>
    have hf : f.2 < 2 ^ f.1 := hfit f (mem_cons_self ..)
    have hmod : packed (f :: fs) % 2 ^ f.1 = f.2 := by
      rw [packed, Nat.mul_add_mod_self_right, Nat.mod_eq_of_lt hf]
    have hdiv : packed (f :: fs) / 2 ^ f.1 = packed fs := by
      rw [packed, add_comm, Nat.add_mul_div_right _ _ (Nat.two_pow_pos _), Nat.div_eq_of_lt hf,
        zero_add]
    rw [map_cons, map_cons, unpacked, hmod, hdiv, ih fun g hg => hfit g (mem_cons_of_mem _ hg)]

/-- The highest bit of all fields is set if every field has its own highest bit set. -/
theorem two_pow_le_packed (hhigh : ∀ f ∈ fs, 0 < f.1 → 2 ^ (f.1 - 1) ≤ f.2)
    (hpos : 0 < width fs) : 2 ^ (width fs - 1) ≤ packed fs := by
  induction fs with
  | nil => cases hpos
  | cons f fs ih =>
    rw [width_cons] at hpos ⊢
    rw [packed]
    rcases Nat.eq_zero_or_pos (width fs) with hzero | hrest
    · have := hhigh f (mem_cons_self ..) (by omega)
      rw [hzero, add_zero]
      omega
    · have hle := ih (fun g hg => hhigh g (mem_cons_of_mem _ hg)) hrest
      have hmul := Nat.mul_le_mul_right (2 ^ f.1) hle
      rw [← Nat.pow_add] at hmul
      rw [show f.1 + width fs - 1 = width fs - 1 + f.1 by omega]
      omega

/-! ## Rounding up to a power of two -/

/-- Each bit of the result is set if it or one of the `d` bits above it was set. -/
theorem testBit_or_shiftRight {a b d : Nat}
    (ha : ∀ i, a.testBit i = true ↔ ∃ k < d, b.testBit (i + k) = true) (i : Nat) :
    (a ||| a >>> d).testBit i = true ↔ ∃ k < d + d, b.testBit (i + k) = true := by
  rw [Nat.testBit_or, Bool.or_eq_true, Nat.testBit_shiftRight, ha, ha]
  constructor
  · rintro (⟨k, hk, hbit⟩ | ⟨k, hk, hbit⟩)
    · exact ⟨k, by omega, hbit⟩
    · exact ⟨d + k, by omega, by rwa [show i + (d + k) = d + i + k by omega]⟩
  · rintro ⟨k, hk, hbit⟩
    by_cases hlt : k < d
    · exact .inl ⟨k, hlt, hbit⟩
    · exact .inr ⟨k - d, by omega, by rwa [show d + i + (k - d) = i + k by omega]⟩

/-- All bits below a set bit, in five steps that double the distance. -/
def smear (b : Nat) : Nat :=
  let b := b ||| b >>> 1
  let b := b ||| b >>> 2
  let b := b ||| b >>> 4
  let b := b ||| b >>> 8
  b ||| b >>> 16

theorem testBit_smear (b i : Nat) : (smear b).testBit i = true ↔ ∃ k < 32,
    b.testBit (i + k) = true := by
  have h0 : ∀ i, b.testBit i = true ↔ ∃ k < 1, b.testBit (i + k) = true := by
    intro i
    constructor
    · intro h
      exact ⟨0, by decide, h⟩
    · rintro ⟨k, hk, h⟩
      rwa [Nat.lt_one_iff.1 hk] at h
  exact testBit_or_shiftRight (testBit_or_shiftRight (testBit_or_shiftRight
    (testBit_or_shiftRight (testBit_or_shiftRight h0)))) i

/-- The result is the largest number with as many bits. -/
theorem smear_eq {b : Nat} (hb : b < 2 ^ 32) : smear b = 2 ^ b.size - 1 := by
  apply Nat.eq_of_testBit_eq
  intro i
  rw [Nat.testBit_two_pow_sub_one, Bool.eq_iff_iff, testBit_smear, decide_eq_true_iff]
  have hsize : b.size ≤ 32 := Nat.size_le.2 hb
  constructor
  · rintro ⟨k, -, hbit⟩
    by_contra hle
    have hlt : b < 2 ^ (i + k) :=
      lt_of_lt_of_le (Nat.lt_size_self b) (Nat.pow_le_pow_right (by decide) (by omega))
    rw [Nat.testBit_lt_two_pow hlt] at hbit
    cases hbit
  · intro hi
    refine ⟨b.size - 1 - i, by omega, ?_⟩
    rw [show i + (b.size - 1 - i) = b.size - 1 by omega]
    refine Nat.testBit_of_two_pow_le_and_two_pow_add_one_gt (Nat.lt_size.1 (by omega)) ?_
    rw [Nat.sub_add_cancel (by omega)]
    exact Nat.lt_size_self b

end CharmRuntime.Lib.BitFields
