import Mathlib.Algebra.Order.BigOperators.GroupWithZero.List
import Mathlib.Data.List.GetD
import Mathlib.Data.Nat.Count
import Mathlib.Tactic.Ring

/-!
# Numbers in mixed radix

The digits of a number in the radices of a list, the last one varying fastest. The number is known
by its digits (`eq_of_digit_eq`), and `setDigit` changes one of them and keeps the others
(`digit_setDigit`). The indices inside the bounds of a list of sizes are numbered in the same way;
the numbers are those below the product of the sizes (`map_rowMajor_box`), so to count indices is to
count numbers (`countP_box`).
-/

set_option autoImplicit false

namespace CharmRuntime.Lib.MixedRadix

open List

section RowMajor

/-- The indices inside the bounds. -/
def box : List Nat → List (List Nat)
  | [] => [[]]
  | n :: ns => (range n).flatMap fun x => (box ns).map (x :: ·)

/-- The number of an index. -/
def rowMajor : List Nat → List Nat → Nat
  | _ :: ns, x :: i => x * ns.prod + rowMajor ns i
  | _, _ => 0

variable {ns i : List Nat}

theorem flatMap_range (n m : Nat) : (range n).flatMap (fun x => (range m).map (x * m + ·)) =
    range (n * m) := by
  induction n with
  | zero => simp
  | succ n ih => rw [range_succ, flatMap_append, ih, flatMap_singleton, Nat.succ_mul, range_add]

theorem map_rowMajor_box : (box ns).map (rowMajor ns) = range ns.prod := by
  induction ns with
  | nil => rfl
  | cons n ns ih =>
    rw [box, map_flatMap, prod_cons, ← flatMap_range, ← ih]
    simp [Function.comp_def, rowMajor]

theorem rowMajor_lt (hi : i ∈ box ns) : rowMajor ns i < ns.prod := by
  rw [← mem_range, ← map_rowMajor_box]
  exact mem_map_of_mem hi

theorem length_of_mem_box (hi : i ∈ box ns) : i.length = ns.length := by
  induction ns generalizing i with
  | nil => rw [mem_singleton.1 hi]
  | cons n ns ih =>
    obtain ⟨x, -, hi⟩ := mem_flatMap.1 hi
    obtain ⟨j, hj, rfl⟩ := mem_map.1 hi
    rw [length_cons, length_cons, ih hj]

/-- The indices with a property of their numbers are as many as the numbers with it. -/
theorem countP_box (p : Nat → Prop) [DecidablePred p] :
    (box ns).countP (fun i => p (rowMajor ns i)) = ns.prod.count p := by
  have hrange (N : Nat) : (range N).countP (p ·) = N.count p := by
    induction N with
    | zero => rfl
    | succ N ih => rw [range_succ, countP_append, ih, Nat.count_succ, countP_singleton]; simp
  rw [← hrange, ← map_rowMajor_box, countP_map]
  rfl

end RowMajor

/-- The weight of digit `i`: the product of the radices after it. -/
def weight (sizes : List Nat) (i : Nat) : Nat := (sizes.drop (i + 1)).prod

/-- The radix of digit `i`. -/
def radix (sizes : List Nat) (i : Nat) : Nat := sizes.getD i 1

/-- Digit `i` of a number. -/
def digit (sizes : List Nat) (p i : Nat) : Nat := p / weight sizes i % radix sizes i

/-- The number with another digit `i`. -/
def setDigit (sizes : List Nat) (p i x : Nat) : Nat :=
  p + x * weight sizes i - digit sizes p i * weight sizes i

variable {sizes : List Nat} {p q i j x : Nat}

/-! ## Weights -/

@[simp] theorem weight_cons_succ (s : Nat) : weight (s :: sizes) (i + 1) = weight sizes i := rfl

@[simp] theorem digit_cons_succ (s : Nat) : digit (s :: sizes) p (i + 1) = digit sizes p i := by
  simp [digit, radix]

theorem prod_drop (sizes : List Nat) (i : Nat) :
    (sizes.drop i).prod = radix sizes i * weight sizes i := by
  rcases lt_or_ge i sizes.length with h | h
  · rw [drop_eq_getElem_cons h, prod_cons, weight, radix, getD_eq_getElem _ _ h]
  · rw [weight, radix, drop_eq_nil_of_le h, drop_eq_nil_of_le (Nat.le_succ_of_le h),
      getD_eq_default _ _ h, prod_nil, one_mul]

theorem prod_eq : sizes.prod = radix sizes 0 * weight sizes 0 := prod_drop sizes 0

theorem radix_mul_weight_dvd (sizes : List Nat) (h : i < j) :
    radix sizes j * weight sizes j ∣ weight sizes i := by
  rw [← prod_drop, weight, ← take_append_drop (j - (i + 1)) (sizes.drop (i + 1)), prod_append,
    drop_drop, show i + 1 + (j - (i + 1)) = j by omega]
  exact Nat.dvd_mul_left _ _

theorem radix_mul_weight_dvd_prod (sizes : List Nat) (i : Nat) :
    radix sizes i * weight sizes i ∣ sizes.prod := by
  rcases Nat.eq_zero_or_pos i with rfl | h
  · rw [prod_eq]
  · rw [prod_eq]
    exact (radix_mul_weight_dvd sizes h).trans (Nat.dvd_mul_left _ _)

section Positive

variable (hpos : ∀ s ∈ sizes, 0 < s)

include hpos

theorem weight_pos : 0 < weight sizes i :=
  prod_pos fun s hs => hpos s (mem_of_mem_drop hs)

theorem radix_pos : 0 < radix sizes i := by
  rcases lt_or_ge i sizes.length with h | h
  · rw [radix, getD_eq_getElem _ _ h]
    exact hpos _ (getElem_mem h)
  · rw [radix, getD_eq_default _ _ h]
    exact one_pos

theorem digit_lt : digit sizes p i < radix sizes i := Nat.mod_lt _ (radix_pos hpos)

end Positive

/-! ## Digits -/

/-- A digit depends on the number modulo the weight of the digit before. -/
theorem digit_eq_of_mod
    (h : p % (radix sizes i * weight sizes i) = q % (radix sizes i * weight sizes i)) :
    digit sizes p i = digit sizes q i := by
  rw [mul_comm] at h
  rw [digit, digit, ← Nat.mod_mul_right_div_self, h, Nat.mod_mul_right_div_self]

/-- Numbers below the product of the radices that have the same digits are equal. -/
theorem eq_of_digit_eq (hpos : ∀ s ∈ sizes, 0 < s) (hp : p < sizes.prod) (hq : q < sizes.prod)
    (h : ∀ i < sizes.length, digit sizes p i = digit sizes q i) : p = q := by
  -- the head of the list gives the quotient by the product of the tail, the tail the remainder
  induction sizes generalizing p q with
  | nil =>
    rw [prod_nil] at hp hq
    omega
  | cons s sizes ih =>
    have hpos' : ∀ r ∈ sizes, 0 < r := fun r hr => hpos r (mem_cons_of_mem _ hr)
    have hprod : 0 < sizes.prod := prod_pos hpos'
    rw [prod_cons, mul_comm] at hp hq
    have hdiv : p / sizes.prod = q / sizes.prod := by
      have h0 := h 0 (Nat.succ_pos _)
      have hweight : weight (s :: sizes) 0 = sizes.prod := rfl
      have hradix : radix (s :: sizes) 0 = s := rfl
      rwa [digit, digit, hweight, hradix, Nat.mod_eq_of_lt (Nat.div_lt_of_lt_mul hp),
        Nat.mod_eq_of_lt (Nat.div_lt_of_lt_mul hq)] at h0
    have hmod : p % sizes.prod = q % sizes.prod := by
      apply ih hpos' (Nat.mod_lt _ hprod) (Nat.mod_lt _ hprod)
      intro i hi
      have hi' := h (i + 1) (Nat.succ_lt_succ hi)
      rw [digit_cons_succ, digit_cons_succ] at hi'
      have hmod (n : Nat) : digit sizes (n % sizes.prod) i = digit sizes n i :=
        digit_eq_of_mod (Nat.mod_mod_of_dvd n (radix_mul_weight_dvd_prod sizes i))
      rw [hmod, hmod, hi']
    rw [← Nat.div_add_mod p sizes.prod, ← Nat.div_add_mod q sizes.prod, hdiv, hmod]

/-! ## Changing a digit -/

/-- The parts of a number above and below a digit. -/
theorem eq_parts (sizes : List Nat) (p i : Nat) :
    p = p / (radix sizes i * weight sizes i) * (radix sizes i * weight sizes i) +
    digit sizes p i * weight sizes i + p % weight sizes i := by
  have hlow := Nat.div_add_mod p (weight sizes i)
  have hhigh := Nat.div_add_mod (p / weight sizes i) (radix sizes i)
  have hdiv : p / (radix sizes i * weight sizes i) = p / weight sizes i / radix sizes i := by
    rw [mul_comm, Nat.div_div_eq_div_mul]
  calc p = weight sizes i * (radix sizes i * (p / weight sizes i / radix sizes i) +
        p / weight sizes i % radix sizes i) + p % weight sizes i := by rw [hhigh, hlow]
    _ = _ := by rw [hdiv, digit]; ring

theorem setDigit_eq : setDigit sizes p i x =
    p / (radix sizes i * weight sizes i) * (radix sizes i * weight sizes i) +
      x * weight sizes i + p % weight sizes i := by
  have h := eq_parts sizes p i
  rw [setDigit]
  omega

@[simp] theorem setDigit_digit : setDigit sizes p i (digit sizes p i) = p := by
  rw [setDigit]
  omega

variable (hpos : ∀ s ∈ sizes, 0 < s)

include hpos

variable (hx : x < radix sizes i)

include hx

/-- What is below the new digit stays below its weight. -/
theorem setDigit_low_lt :
    x * weight sizes i + p % weight sizes i < radix sizes i * weight sizes i := by
  have hlow : p % weight sizes i < weight sizes i := Nat.mod_lt _ (weight_pos hpos)
  calc x * weight sizes i + p % weight sizes i <
    (x + 1) * weight sizes i := by rw [Nat.succ_mul]; omega
    _ ≤ radix sizes i * weight sizes i := Nat.mul_le_mul_right _ hx

theorem setDigit_div :
    setDigit sizes p i x / (radix sizes i * weight sizes i) =
      p / (radix sizes i * weight sizes i) := by
  have hblock : 0 < radix sizes i * weight sizes i := Nat.mul_pos (radix_pos hpos) (weight_pos hpos)
  rw [setDigit_eq, add_assoc, mul_comm (p / _), Nat.mul_add_div hblock,
    Nat.div_eq_of_lt (setDigit_low_lt hpos hx), add_zero]

omit hx in
omit hpos in
theorem setDigit_mod : setDigit sizes p i x % weight sizes i = p % weight sizes i := by
  have heq : setDigit sizes p i x =
      p % weight sizes i + weight sizes i *
          (p / (radix sizes i * weight sizes i) * radix sizes i + x) := by
    rw [setDigit_eq]
    ring
  rw [heq, Nat.add_mul_mod_self_left, Nat.mod_mod]

theorem setDigit_lt (hp : p < sizes.prod) : setDigit sizes p i x < sizes.prod := by
  obtain ⟨m, hm⟩ := radix_mul_weight_dvd_prod sizes i
  rw [hm] at hp ⊢
  rw [mul_comm, ← Nat.div_lt_iff_lt_mul (Nat.mul_pos (radix_pos hpos) (weight_pos hpos))] at hp ⊢
  rwa [setDigit_div hpos hx]

theorem digit_setDigit_self : digit sizes (setDigit sizes p i x) i = x := by
  have hlow : p % weight sizes i < weight sizes i := Nat.mod_lt _ (weight_pos hpos)
  have heq : setDigit sizes p i x =
      weight sizes i * (radix sizes i * (p / (radix sizes i * weight sizes i)) + x) + p %
          weight sizes i := by
    rw [setDigit_eq]
    ring
  rw [digit, heq, Nat.mul_add_div (weight_pos hpos), Nat.div_eq_of_lt hlow, add_zero,
    Nat.mul_add_mod, Nat.mod_eq_of_lt hx]

theorem digit_setDigit_of_ne (h : j ≠ i) :
    digit sizes (setDigit sizes p i x) j = digit sizes p j := by
  rcases Nat.lt_or_gt_of_ne h with hlt | hgt
  · -- the digits before see the number in blocks of at least this digit's radix and weight
    obtain ⟨m, hm⟩ := radix_mul_weight_dvd sizes hlt
    have hsplit (n : Nat) : n / weight sizes j = n / (radix sizes i * weight sizes i) / m := by
      rw [hm, Nat.div_div_eq_div_mul]
    rw [digit, digit, hsplit, hsplit, setDigit_div hpos hx]
  · -- the digits after see it modulo this digit's weight
    apply digit_eq_of_mod
    have hdvd := radix_mul_weight_dvd sizes hgt
    rw [← Nat.mod_mod_of_dvd _ hdvd, setDigit_mod, Nat.mod_mod_of_dvd _ hdvd]

theorem digit_setDigit :
    digit sizes (setDigit sizes p i x) j = if j = i then x else digit sizes p j := by
  split
  · subst_vars
    exact digit_setDigit_self hpos hx
  · exact digit_setDigit_of_ne hpos hx ‹_›

end CharmRuntime.Lib.MixedRadix
