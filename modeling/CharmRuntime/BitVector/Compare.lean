import Mathlib.Data.Nat.Bitwise

/-!
# Comparing bit vectors

A `CkBitVector` keeps its bits in words, the most important bit in the highest bit of the first
word, and zeros after the last bit. `Compare` goes through the words of both vectors, and only when
they do not differ it looks at the lengths. This is the lexicographic order of the bits
(`compare_eq`). `<=` and `>=` are defined by each other's strict operator, so that they agree with
the order for equal vectors only (`operators_agree_iff`).
-/

set_option autoImplicit false

namespace CharmRuntime.BitVector

open List

/-! ## Vectors -/

/-- `chunks`. The sum stays below `2 ^ 32`, so that it does not wrap around. -/
def chunks (n : Nat) : Nat := (n + 32 - 1) / 32

/-- `CkBitVector`. -/
@[ext] structure CkBitVector where
  usedBits : Nat
  data : List (BitVec 32)
  length_data : data.length = chunks usedBits

variable {a b : CkBitVector}

/-- `offset`. -/
def CkBitVector.offset (a : CkBitVector) (bit : Nat) : Nat := chunks (a.usedBits - bit) - 1

/-- `mask`. -/
def CkBitVector.mask (a : CkBitVector) (bit : Nat) : BitVec 32 :=
  1#32 <<< ((32 - a.usedBits % 32 + bit % 32) % 32)

/-- `Test`. -/
def CkBitVector.test (a : CkBitVector) (bit : Nat) : Bool :=
  if bit + 1 > a.usedBits then false
  else (a.data.getD (a.offset bit) 0#32 &&& a.mask bit) != 0#32

/-- The bits, the most important one first. -/
def CkBitVector.bits (a : CkBitVector) : List Bool := (range a.usedBits).reverse.map a.test

/-- The bit that comes `p` places after the highest one of the first word. -/
def bitAt (data : List (BitVec 32)) (p : Nat) : Bool := (data.getD (p / 32) 0#32).getMsbD (p % 32)

/-- The unused bits are zero. -/
def CkBitVector.Clean (a : CkBitVector) : Prop := ∀ p, a.usedBits ≤ p → bitAt a.data p = false

/-! ## Operators -/

/-- The loop of `Compare`, from the value that `result` has before it. -/
def compareLoop {α : Type} [LT α] [DecidableLT α] : List α → List α → Int → Int
  | x :: xs, y :: ys, result => if x > y then 1 else if x < y then -1 else compareLoop xs ys result
  | _, _, result => result

/-- `Compare`. -/
def CkBitVector.compare (a b : CkBitVector) : Int :=
  compareLoop a.data b.data
    (if a.usedBits > b.usedBits then 1 else if a.usedBits < b.usedBits then -1 else 0)

/-- `==`. -/
def CkBitVector.eq (a b : CkBitVector) : Bool := a.compare b == 0

/-- `!=`. -/
def CkBitVector.ne (a b : CkBitVector) : Bool := !a.eq b

/-- `<`. -/
def CkBitVector.lt (a b : CkBitVector) : Bool := a.compare b == -1

/-- `>`. -/
def CkBitVector.gt (a b : CkBitVector) : Bool := a.compare b == 1

/-- `<=`. -/
def CkBitVector.le (a b : CkBitVector) : Bool := a.eq b || a.gt b

/-- `>=`. -/
def CkBitVector.ge (a b : CkBitVector) : Bool := a.eq b || a.lt b

/-! ## The bits of a vector -/

theorem CkBitVector.test_eq {bit : Nat} (h : bit < a.usedBits) :
    a.test bit = bitAt a.data (a.usedBits - 1 - bit) := by
  have hoffset : a.offset bit = (a.usedBits - 1 - bit) / 32 := by
    rw [offset, chunks]
    omega
  have hshift : (32 - a.usedBits % 32 + bit % 32) % 32 = 32 - 1 - (a.usedBits - 1 - bit) % 32 := by
    omega
  have hlt : (a.usedBits - 1 - bit) % 32 < 32 := Nat.mod_lt _ (by decide)
  rw [test, if_neg (by omega), hoffset, mask, hshift, ← BitVec.twoPow_eq, BitVec.and_twoPow, bitAt,
    BitVec.getMsbD, decide_eq_true hlt, Bool.true_and]
  cases (a.data.getD ((a.usedBits - 1 - bit) / 32) 0#32).getLsbD
    (32 - 1 - (a.usedBits - 1 - bit) % 32) with
  | true =>
    have hset : (BitVec.twoPow 32 (32 - 1 - (a.usedBits - 1 - bit) % 32)).getLsbD
        (32 - 1 - (a.usedBits - 1 - bit) % 32) = true := by
      simpa using by omega
    refine bne_iff_ne.2 fun hzero => ?_
    rw [if_pos rfl] at hzero
    rw [hzero] at hset
    simp at hset
  | false => rfl

theorem CkBitVector.bits_eq (a : CkBitVector) : a.bits = (range a.usedBits).map (bitAt a.data) := by
  refine ext_getElem (by simp [bits]) fun p hp hp' => ?_
  rw [length_map, length_range] at hp'
  simp only [bits, getElem_map, getElem_reverse, getElem_range, length_range]
  rw [a.test_eq (by omega)]
  congr 1
  omega

@[simp] theorem CkBitVector.length_bits (a : CkBitVector) : a.bits.length = a.usedBits := by
  simp [bits]

/-- All bits of the words. -/
def padded (data : List (BitVec 32)) : List Bool := (range (32 * data.length)).map (bitAt data)

theorem padded_cons (x : BitVec 32) (xs : List (BitVec 32)) :
    padded (x :: xs) = (range 32).map x.getMsbD ++ padded xs := by
  rw [padded, padded, length_cons, Nat.mul_succ, add_comm, range_add, map_append, map_map]
  refine congrArg₂ (· ++ ·) (map_congr_left fun p hp => ?_) (map_congr_left fun p _ => ?_)
  · rw [mem_range] at hp
    rw [bitAt, Nat.div_eq_of_lt hp, Nat.mod_eq_of_lt hp]
    rfl
  · rw [Function.comp_apply, bitAt, bitAt, Nat.add_mod_left, Nat.add_div_left p (Nat.succ_pos 31)]
    rfl

theorem CkBitVector.Clean.padded_eq (h : a.Clean) : ∃ k,
    padded a.data = a.bits ++ replicate k false := by
  have hle : a.usedBits ≤ 32 * a.data.length := by
    rw [a.length_data, chunks]
    omega
  obtain ⟨k, hk⟩ := Nat.exists_eq_add_of_le hle
  refine ⟨k, ?_⟩
  rw [padded, hk, range_add, map_append, a.bits_eq, map_map, append_right_inj, eq_replicate_iff]
  refine ⟨by simp, fun x hx => ?_⟩
  obtain ⟨p, -, rfl⟩ := mem_map.1 hx
  exact h _ (Nat.le_add_right _ _)

/-! ## The loop -/

section Loop

variable {α : Type} [LT α] [DecidableLT α] {p q u v : List α} {r : Int}

theorem compareLoop_append (h : u.length = v.length) :
    compareLoop (u ++ p) (v ++ q) r = compareLoop u v (compareLoop p q r) := by
  induction u generalizing v with
  | nil =>
    rw [length_eq_zero_iff.1 h.symm]
    rfl
  | cons x u ih =>
    obtain ⟨y, v, rfl⟩ := exists_cons_of_length_eq_add_one h.symm
    simp only [cons_append, compareLoop, ih (Nat.succ.inj h)]

end Loop

/-- The bits of two words differ in the order in which the words do. -/
theorem compareLoop_bits (w : Nat) (x y : BitVec w) (r : Int) :
    compareLoop ((range w).map x.getMsbD) ((range w).map y.getMsbD) r =
      if x > y then 1 else if x < y then -1 else r := by
  induction w with
  | zero => simp [BitVec.eq_nil x, BitVec.eq_nil y, compareLoop]
  | succ w ih =>
    have hbits : ∀ z : BitVec (w + 1),
        (range (w + 1)).map z.getMsbD = z.msb :: (range w).map (z.setWidth w).getMsbD := by
      intro z
      rw [range_succ_eq_map, map_cons, map_map]
      refine congrArg (_ :: ·) (map_congr_left fun p _ => ?_)
      simp [show p + (w + 1) - w = p + 1 by omega]
    have hval : ∀ z : BitVec (w + 1), z.toNat = 2 ^ w * z.msb.toNat + (z.setWidth w).toNat := by
      intro z
      rw [BitVec.toNat_setWidth, BitVec.msb_eq_decide, Nat.add_sub_cancel]
      by_cases hle : 2 ^ w ≤ z.toNat
      · rw [decide_eq_true hle, Nat.mod_eq_sub_mod hle, Nat.mod_eq_of_lt (by omega)]
        simpa using by omega
      · rw [decide_eq_false hle, Nat.mod_eq_of_lt (by omega)]
        simp
    have hx := (x.setWidth w).isLt
    have hy := (y.setWidth w).isLt
    rw [hbits, hbits, compareLoop, ih]
    simp only [BitVec.lt_def, gt_iff_lt, hval x, hval y]
    generalize (x.setWidth w).toNat = m at *
    generalize (y.setWidth w).toNat = n at *
    cases x.msb <;> cases y.msb <;>
      simp only [Bool.toNat_true, Bool.toNat_false, mul_one, mul_zero, zero_add]
    · rfl
    · rw [if_neg (show ¬2 ^ w + n < m by omega), if_pos (show m < 2 ^ w + n by omega)]
      rfl
    · rw [if_pos (show n < 2 ^ w + m by omega)]
      rfl
    · simp only [Nat.add_lt_add_iff_left]
      rfl

theorem compareLoop_padded (xs ys : List (BitVec 32)) (r : Int) :
    compareLoop (padded xs) (padded ys) r = compareLoop xs ys r := by
  induction xs generalizing ys with
  | nil => rfl
  | cons x xs ih =>
    cases ys with
    | nil => cases padded (x :: xs) <;> rfl
    | cons y ys => rw [padded_cons, padded_cons, compareLoop_append (by simp),
        compareLoop_bits, ih]; rfl

/-- The value of `Compare` for the order of two vectors. -/
def sign : Ordering → Int
  | .lt => -1
  | .eq => 0
  | .gt => 1

theorem compareLoop_zeros (k : Nat) {q : List Bool} {r : Int} (h : r = -1 ∨ ∀ x ∈ q, x = false) :
    compareLoop (replicate k false) q r = r := by
  induction k generalizing q with
  | zero => rfl
  | succ k ih =>
    match q with
    | [] => rfl
    | false :: q => exact ih (h.imp_right fun hq x hx => hq x (mem_cons_of_mem _ hx))
    | true :: q => exact (h.resolve_right fun hq => nomatch hq true mem_cons_self).symm

theorem compareLoop_zeros_right (l : Nat) (p : List Bool) :
    compareLoop p (replicate l false) 1 = 1 := by
  induction p generalizing l with
  | nil => rfl
  | cons x p ih =>
    cases l with
    | zero => rfl
    | succ l => cases x with
      | false => exact ih l
      | true => rfl

/-- With zeros after the bits and the length to decide, the loop finds the lexicographic order. -/
theorem compareLoop_eq_sign (A B : List Bool) (k l : Nat) :
    compareLoop (A ++ replicate k false) (B ++ replicate l false)
        (if A.length > B.length then 1 else if A.length < B.length then -1 else 0) =
      sign (compare A B) := by
  induction A generalizing B with
  | nil =>
    cases B with
    | nil => exact compareLoop_zeros k (.inr fun _ => eq_of_mem_replicate)
    | cons y B => exact compareLoop_zeros k (.inl rfl)
  | cons x A ih =>
    cases B with
    | nil => exact compareLoop_zeros_right l _
    | cons y B =>
      have ih := ih B
      simp only [length_cons, Nat.succ_lt_succ_iff, gt_iff_lt] at ih ⊢
      cases x <;> cases y
      · exact ih
      · rfl
      · rfl
      · exact ih

/-! ## The order -/

theorem compare_eq (ha : a.Clean) (hb : b.Clean) : a.compare b = sign (compare a.bits b.bits) := by
  obtain ⟨k, hk⟩ := ha.padded_eq
  obtain ⟨l, hl⟩ := hb.padded_eq
  rw [CkBitVector.compare, ← compareLoop_padded, hk, hl, ← compareLoop_eq_sign _ _ k l,
    a.length_bits, b.length_bits]

/-- Words that differ have a bit that differs. -/
theorem data_ext {xs ys : List (BitVec 32)} (hlen : xs.length = ys.length)
    (h : ∀ p, bitAt xs p = bitAt ys p) : xs = ys := by
  refine ext_getElem hlen fun i hi hi' => BitVec.eq_of_getMsbD_eq fun j hj => ?_
  have hp := h (32 * i + j)
  rwa [bitAt, bitAt, Nat.mul_add_div (by decide), Nat.div_eq_of_lt hj, add_zero, Nat.mul_add_mod,
    Nat.mod_eq_of_lt hj, getD_eq_getElem _ _ hi, getD_eq_getElem _ _ hi'] at hp

theorem eq_of_bits_eq (ha : a.Clean) (hb : b.Clean) (h : a.bits = b.bits) : a = b := by
  have hused : a.usedBits = b.usedBits := by rw [← a.length_bits, h, b.length_bits]
  refine CkBitVector.ext hused (data_ext ?_ fun p => ?_)
  · rw [a.length_data, b.length_data, hused]
  · by_cases hp : p < a.usedBits
    · rw [a.bits_eq, b.bits_eq, hused] at h
      exact map_inj_left.1 h p (mem_range.2 (hused ▸ hp))
    · rw [ha p (by omega), hb p (by omega)]

/-- What the operators of two vectors should say. -/
structure OperatorsAgree (a b : CkBitVector) : Prop where
  compare : a.compare b = sign (compare a.bits b.bits)
  eq : a.eq b = (Ord.compare a.bits b.bits).isEq
  ne : a.ne b = (Ord.compare a.bits b.bits).isNe
  lt : a.lt b = (Ord.compare a.bits b.bits).isLT
  le : a.le b = (Ord.compare a.bits b.bits).isLE
  gt : a.gt b = (Ord.compare a.bits b.bits).isGT
  ge : a.ge b = (Ord.compare a.bits b.bits).isGE

theorem compare_eq_iff_eq (ha : a.Clean) (hb : b.Clean) :
    Ord.compare a.bits b.bits = .eq ↔ a = b := by
  rw [Std.LawfulEqOrd.compare_eq_iff_eq]
  exact ⟨eq_of_bits_eq ha hb, congrArg _⟩

/-- `Compare` is right for all vectors whose unused bits are zero, and 0 for equal ones only. All
operators agree with it if and only if the vectors are equal, since `<=` and `>=` are exchanged. -/
theorem operators_agree_iff (a b : CkBitVector) (ha : a.Clean) (hb : b.Clean) :
    a.compare b = sign (compare a.bits b.bits) ∧ (a.compare b = 0 ↔ a = b) ∧
      (OperatorsAgree a b ↔ a = b) := by
  have hcompare := compare_eq ha hb
  have heq := compare_eq_iff_eq ha hb
  refine ⟨hcompare, ?_, fun h => ?_, fun h => ?_⟩
  · rw [hcompare, ← heq]
    cases Ord.compare a.bits b.bits <;> decide
  · have hle := h.le
    rw [CkBitVector.le, CkBitVector.eq, CkBitVector.gt, hcompare] at hle
    rw [← heq]
    cases hord : Ord.compare a.bits b.bits <;> rw [hord] at hle
    · exact absurd hle (by decide)
    · exact absurd hle (by decide)
  · refine ⟨hcompare, ?_, ?_, ?_, ?_, ?_, ?_⟩ <;>
      simp only [CkBitVector.eq, CkBitVector.ne, CkBitVector.lt, CkBitVector.gt, CkBitVector.le,
        CkBitVector.ge, hcompare, heq.2 h] <;> rfl

/-- A vector of one bit. -/
def oneBit (x : Bool) : CkBitVector := ⟨1, [if x then 0x80000000#32 else 0#32], rfl⟩

theorem oneBit_clean (x : Bool) : (oneBit x).Clean := by
  intro p hp
  by_cases hlt : p < 32
  · revert p
    cases x <;> decide
  · rw [bitAt, getD_eq_default _ _ (show 1 ≤ p / 32 by omega)]
    simp

/-- Two equal vectors. -/
theorem operators_agree_iff_same : (oneBit true).Clean ∧
    OperatorsAgree (oneBit true) (oneBit true) :=
  ⟨oneBit_clean true, (operators_agree_iff _ _ (oneBit_clean true) (oneBit_clean true)).2.2.2 rfl⟩

/-- 0 comes before 1, and `<=` denies it. -/
theorem le_exchanged : (oneBit false).lt (oneBit true) = true ∧
    (oneBit true).lt (oneBit false) = false ∧ (oneBit false).le (oneBit true) = false := by
  decide

end CharmRuntime.BitVector
