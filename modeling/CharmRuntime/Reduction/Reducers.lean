import CharmRuntime.Lib.PartialFold
import Mathlib.Data.List.MinMax
import Mathlib.Algebra.BigOperators.Group.List.Basic
import Mathlib.Algebra.GroupWithZero.Nat

/-!
# The built-in reducers

The reducers of `ckreduction.C` that are made by `SIMPLE_REDUCTION` for integers and `bool`. Each
has the body of its loop (`Reducer.loop`), as it is in the source, and the value that its comment
promises for a list of numbers (`Reducer.fold`). All of them can be computed in parts
(`Reducer.folds`). The logical reducers of `int` differ from the others in one point: a number that
is combined with no other keeps its value (`Reducer.fold_single_iff`).
-/

set_option autoImplicit false

namespace CharmRuntime.Reduction

open Lib List BitVec

variable {w : Nat} {x : BitVec w}

/-! ## Reducers -/

/-- The reducers of `w`-bit integers. A `bool` has one bit. -/
inductive Reducer : Nat → Type
  | sum {w : Nat} : Reducer w
  | product {w : Nat} : Reducer w
  | max {w : Nat} (signed : Bool) : Reducer w
  | min {w : Nat} (signed : Bool) : Reducer w
  | logicalAnd {w : Nat} : Reducer w
  | logicalOr {w : Nat} : Reducer w
  | logicalXor {w : Nat} : Reducer w
  | logicalAndBool : Reducer 1
  | logicalOrBool : Reducer 1
  | logicalXorBool : Reducer 1
  | bitvecAnd {w : Nat} : Reducer w
  | bitvecOr {w : Nat} : Reducer w
  | bitvecXor {w : Nat} : Reducer w

/-- The number that a variable of a signed or unsigned type holds. -/
def value (signed : Bool) (x : BitVec w) : Int := if signed then x.toInt else x.toNat

/-- `!!x`. -/
def truth (x : BitVec w) : BitVec w := if x = 0#w then 0#w else 1#w

/-- The body of the loop of a reducer: the new `ret[i]`, from `ret[i]` and `value[i]`. -/
def Reducer.loop : {w : Nat} → Reducer w → BitVec w → BitVec w → BitVec w
  | _, .sum, x, y => x + y
  | _, .product, x, y => x * y
  | _, .max signed, x, y => if value signed x < value signed y then y else x
  | _, .min signed, x, y => if value signed x > value signed y then y else x
  | w, .logicalAnd, x, y => truth (if y = 0#w then 0#w else x)
  | w, .logicalOr, x, y => truth (if y ≠ 0#w then 1#w else x)
  | w, .logicalXor, x, y => if decide (x = 0#w) ≠ decide (y = 0#w) then 1#w else 0#w
  | _, .logicalAndBool, x, y => if y = 0#1 then 0#1 else x
  | _, .logicalOrBool, x, y => if y ≠ 0#1 then 1#1 else x
  | _, .logicalXorBool, x, y => if x ≠ y then 1#1 else 0#1
  | _, .bitvecAnd, x, y => x &&& y
  | _, .bitvecOr, x, y => x ||| y
  | _, .bitvecXor, x, y => x ^^^ y

/-- 1 if no number is 0. -/
def conjunction (xs : List (BitVec w)) : BitVec w := if ∀ x ∈ xs, x ≠ 0#w then 1#w else 0#w

/-- 1 if a number is not 0. -/
def disjunction (xs : List (BitVec w)) : BitVec w := if ∃ x ∈ xs, x ≠ 0#w then 1#w else 0#w

/-- 1 if an odd number of the numbers are not 0. -/
def parity (xs : List (BitVec w)) : BitVec w := if xs.countP (· ≠ 0#w) % 2 = 1 then 1#w else 0#w

/-- What a reducer is for, in terms of the numbers: their sum and product modulo `2 ^ w`, the
largest and the smallest, whether all, one or an odd number of them are not 0, and the operations on
each bit. -/
def Reducer.fold : {w : Nat} → Reducer w → List (BitVec w) → BitVec w
  | w, .sum, xs => BitVec.ofNat w (xs.map BitVec.toNat).sum
  | w, .product, xs => BitVec.ofNat w (xs.map BitVec.toNat).prod
  | w, .max signed, xs => BitVec.ofInt w ((xs.map (value signed)).max?.getD 0)
  | w, .min signed, xs => BitVec.ofInt w ((xs.map (value signed)).min?.getD 0)
  | _, .logicalAnd, xs | _, .logicalAndBool, xs => conjunction xs
  | _, .logicalOr, xs | _, .logicalOrBool, xs => disjunction xs
  | _, .logicalXor, xs | _, .logicalXorBool, xs => parity xs
  | w, .bitvecAnd, xs => xs.foldr (· &&& ·) (allOnes w)
  | w, .bitvecOr, xs => xs.foldr (· ||| ·) 0#w
  | w, .bitvecXor, xs => xs.foldr (· ^^^ ·) 0#w

/-- `logical_and`, `logical_or` and `logical_xor` of `int`. -/
def Reducer.IsLogicalInt : {w : Nat} → Reducer w → Prop
  | _, .logicalAnd | _, .logicalOr | _, .logicalXor => True
  | _, _ => False

/-! ## Sums and products -/

theorem foldsBy_sum : FoldsBy (· + ·) id (Reducer.fold (w := w) .sum) where
  assoc := BitVec.add_assoc
  comm := BitVec.add_comm
  single x := by simp [Reducer.fold]
  cons x xs _ := by simp [Reducer.fold, BitVec.ofNat_add]
  normal _ := rfl

theorem foldsBy_product : FoldsBy (· * ·) id (Reducer.fold (w := w) .product) where
  assoc := BitVec.mul_assoc
  comm := BitVec.mul_comm
  single x := by simp [Reducer.fold]
  cons x xs _ := by simp [Reducer.fold, BitVec.ofNat_mul]
  normal _ := rfl

/-! ## Maximum and minimum -/

section Extrema

variable {signed : Bool}

@[simp]
theorem ofInt_value (x : BitVec w) : BitVec.ofInt w (value signed x) = x := by
  cases signed
  · simp [value]
  · simp [value]

section Choice

variable {f : Int → Int → Int} {m : List Int → Option Int} (hf : ∀ a b, f a b = a ∨ f a b = b)

include hf

/-- The pattern of one of two numbers holds that number. -/
theorem value_ofInt_choice (x y : BitVec w) :
    value signed (BitVec.ofInt w (f (value signed x) (value signed y))) =
    f (value signed x) (value signed y) := by
  rcases hf (value signed x) (value signed y) with h | h <;> rw [h, ofInt_value]

/-- A number that is chosen from others is one of them, so it has a pattern. -/
theorem foldsBy_choice (hassoc : ∀ a b c, f (f a b) c = f a (f b c)) (hcomm : ∀ a b, f a b = f b a)
    (hnil : m [] = none) (hcons : ∀ a l, m (a :: l) = some ((m l).elim a (f a))) :
    FoldsBy (fun x y => BitVec.ofInt w (f (value signed x) (value signed y))) id
      fun xs => BitVec.ofInt w ((m (xs.map (value signed))).getD 0) where
  assoc x y z := by rw [value_ofInt_choice hf, value_ofInt_choice hf, hassoc]
  comm x y := by rw [hcomm]
  single x := by simp [hcons, hnil]
  cons x xs hxs := by
    have hpattern : ∃ y : BitVec w, m (xs.map (value signed)) = some (value signed y) := by
      induction xs with
      | nil => exact absurd rfl hxs
      | cons x xs ih =>
        rw [map_cons, hcons]
        by_cases h : xs = []
        · exact ⟨x, by rw [h, map_nil, hnil]; rfl⟩
        · obtain ⟨y, hy⟩ := ih h
          exact ⟨BitVec.ofInt w (f (value signed x) (value signed y)), by
            rw [hy, value_ofInt_choice hf]; rfl⟩
    obtain ⟨y, hy⟩ := hpattern
    simp [hcons, hy]
  normal _ := rfl

end Choice

theorem loop_max (x y : BitVec w) :
    Reducer.loop (.max signed) x y = BitVec.ofInt w (max (value signed x) (value signed y)) := by
  rw [Reducer.loop]
  split
  · rw [max_eq_right (le_of_lt ‹_›), ofInt_value]
  · rw [max_eq_left (not_lt.1 ‹_›), ofInt_value]

theorem loop_min (x y : BitVec w) :
    Reducer.loop (.min signed) x y = BitVec.ofInt w (min (value signed x) (value signed y)) := by
  rw [Reducer.loop]
  split
  · rw [min_eq_right (le_of_lt ‹_›), ofInt_value]
  · rw [min_eq_left (not_lt.1 ‹_›), ofInt_value]

end Extrema

/-! ## Logical operations -/

@[simp]
theorem truth_zero : truth 0#w = 0#w := if_pos rfl

@[simp]
theorem truth_one : truth 1#w = 1#w := by
  by_cases h : 1#w = 0#w
  · rw [h, truth_zero]
  · exact if_neg h

theorem truth_of_ne (h : x ≠ 0#w) : truth x = 1#w := if_neg h

theorem truth_ite (p : Prop) [Decidable p] :
    truth (if p then 1#w else 0#w) = if p then 1#w else 0#w := by
  split
  · exact truth_one
  · exact truth_zero

theorem foldsBy_conjunction : FoldsBy (· &&& ·) truth (conjunction (w := w)) where
  assoc := and_assoc
  comm := and_comm
  single x := by simp [conjunction, truth]
  cons x xs _ := by
    by_cases hx : x = 0#w
    · simp [conjunction, hx]
    · simp only [conjunction, forall_mem_cons, truth_of_ne hx, true_and, ne_eq, hx,
        not_false_eq_true]
      split <;> simp
  normal _ := truth_ite _

theorem foldsBy_disjunction : FoldsBy (· ||| ·) truth (disjunction (w := w)) where
  assoc := or_assoc
  comm := or_comm
  single x := by simp [disjunction, truth]
  cons x xs _ := by
    by_cases hx : x = 0#w
    · simp [disjunction, hx]
    · rw [truth_of_ne hx, disjunction, if_pos ⟨x, mem_cons_self, hx⟩, disjunction]
      split <;> simp
  normal _ := truth_ite _

theorem foldsBy_parity : FoldsBy (· ^^^ ·) truth (parity (w := w)) where
  assoc := BitVec.xor_assoc
  comm := BitVec.xor_comm
  single x := by
    by_cases hx : x = 0#w
    · simp [parity, hx]
    · simp [parity, hx, truth_of_ne hx]
  cons x xs _ := by
    by_cases hx : x = 0#w
    · simp [parity, hx]
    · simp only [parity, truth_of_ne hx]
      rw [countP_cons_of_pos (by simpa using hx)]
      rcases Nat.mod_two_eq_zero_or_one (xs.countP (· ≠ 0#w)) with h | h
      · rw [if_pos (by omega), if_neg (by omega), BitVec.xor_zero]
      · rw [if_neg (by omega), if_pos h, BitVec.xor_self]
  normal _ := truth_ite _

/-! ## Operations on bits -/

theorem foldsBy_bitvecAnd : FoldsBy (· &&& ·) id (Reducer.fold (w := w) .bitvecAnd) where
  assoc := and_assoc
  comm := and_comm
  single x := by simp [Reducer.fold]
  cons _ _ _ := rfl
  normal _ := rfl

theorem foldsBy_bitvecOr : FoldsBy (· ||| ·) id (Reducer.fold (w := w) .bitvecOr) where
  assoc := or_assoc
  comm := or_comm
  single x := by simp [Reducer.fold]
  cons _ _ _ := rfl
  normal _ := rfl

theorem foldsBy_bitvecXor : FoldsBy (· ^^^ ·) id (Reducer.fold (w := w) .bitvecXor) where
  assoc := BitVec.xor_assoc
  comm := BitVec.xor_comm
  single x := by simp [Reducer.fold]
  cons _ _ _ := rfl
  normal _ := rfl

/-! ## All reducers -/

/-- The order and grouping in which the loops combine numbers does not matter. -/
theorem Reducer.folds : {w : Nat} → (R : Reducer w) → Folds R.loop R.fold
  | _, .sum => foldsBy_sum.folds fun _ _ => rfl
  | _, .product => foldsBy_product.folds fun _ _ => rfl
  | _, .max _ =>
    (foldsBy_choice max_choice max_assoc max_comm max?_nil fun _ _ => max?_cons).folds loop_max
  | _, .min _ =>
    (foldsBy_choice min_choice min_assoc min_comm min?_nil fun _ _ => min?_cons).folds loop_min
  | _, .logicalAnd => foldsBy_conjunction.folds fun x y => by
    by_cases hy : y = 0#_
    · simp [Reducer.loop, hy]
    · by_cases hx : x = 0#_
      · simp [Reducer.loop, hx]
      · simp [Reducer.loop, hy, truth_of_ne hx, truth_of_ne hy]
  | _, .logicalOr => foldsBy_disjunction.folds fun x y => by
    by_cases hy : y = 0#_
    · simp [Reducer.loop, hy]
    · by_cases hx : x = 0#_
      · simp [Reducer.loop, hx, hy, truth_of_ne hy]
      · simp [Reducer.loop, hy, truth_of_ne hx, truth_of_ne hy]
  | _, .logicalXor => foldsBy_parity.folds fun x y => by
    by_cases hy : y = 0#_ <;> by_cases hx : x = 0#_ <;> simp [Reducer.loop, hx, hy, truth]
  | _, .logicalAndBool => foldsBy_conjunction.folds (by decide)
  | _, .logicalOrBool => foldsBy_disjunction.folds (by decide)
  | _, .logicalXorBool => foldsBy_parity.folds (by decide)
  | _, .bitvecAnd => foldsBy_bitvecAnd.folds fun _ _ => rfl
  | _, .bitvecOr => foldsBy_bitvecOr.folds fun _ _ => rfl
  | _, .bitvecXor => foldsBy_bitvecXor.folds fun _ _ => rfl

theorem truth_eq_self_iff : truth x = x ↔ x = 0#w ∨ x = 1#w := by
  by_cases hx : x = 0#w
  · simp [hx]
  · simp [truth_of_ne hx, hx, eq_comm]

/-- A number alone is its own fold, except that the logical reducers of `int` promise 0 or 1. -/
theorem Reducer.fold_single_iff : {w : Nat} → (R : Reducer w) → (x : BitVec w) →
    (R.fold [x] = x ↔ (R.IsLogicalInt → x = 0#w ∨ x = 1#w))
  | _, .sum, x => iff_of_true (foldsBy_sum.single x) (False.elim ·)
  | _, .product, x => iff_of_true (foldsBy_product.single x) (False.elim ·)
  | _, .max _, x | _, .min _, x => iff_of_true (by simp [Reducer.fold]) (False.elim ·)
  | _, .logicalAnd, x => by
    rw [Reducer.fold, foldsBy_conjunction.single, truth_eq_self_iff, IsLogicalInt, true_imp_iff]
  | _, .logicalOr, x => by
    rw [Reducer.fold, foldsBy_disjunction.single, truth_eq_self_iff, IsLogicalInt, true_imp_iff]
  | _, .logicalXor, x => by
    rw [Reducer.fold, foldsBy_parity.single, truth_eq_self_iff, IsLogicalInt, true_imp_iff]
  | _, .logicalAndBool, x | _, .logicalOrBool, x | _, .logicalXorBool, x => by
    refine iff_of_true ?_ (False.elim ·)
    rcases eq_zero_or_eq_one x with rfl | rfl <;> rfl
  | _, .bitvecAnd, x => iff_of_true (foldsBy_bitvecAnd.single x) (False.elim ·)
  | _, .bitvecOr, x => iff_of_true (foldsBy_bitvecOr.single x) (False.elim ·)
  | _, .bitvecXor, x => iff_of_true (foldsBy_bitvecXor.single x) (False.elim ·)

end CharmRuntime.Reduction
