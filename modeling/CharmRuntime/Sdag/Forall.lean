import Mathlib.Algebra.Order.Ring.Int
import Mathlib.Data.List.Nodup

/-!
# The `forall` of Structured Dagger

The generated code swaps the bounds and negates the stride if the first bound is above the last one,
so that its loop only ends if it counts upwards. It is right for a range upwards, and for a range
downwards that ends with its last bound, in which no `int` overflows (`right_iff_regular`). A range
downwards that does not end with its last bound has bodies of other indices, and an empty range
becomes a loop away from the bound.
-/

set_option autoImplicit false

namespace CharmRuntime.Sdag

open List

/-- The values of an `int`. -/
def IsInt (x : Int) : Prop := -2 ^ 31 ≤ x ∧ x < 2 ^ 31

instance (x : Int) : Decidable (IsInt x) := inferInstanceAs (Decidable (_ ∧ _))

/-- The result of an operation on `int`; `none` if it overflows. -/
def int (x : Int) : Option Int := if IsInt x then some x else none

/-- The bounds and the stride of a `forall`. -/
structure Range where
  first : Int
  last : Int
  stride : Int
  isInt : IsInt first ∧ IsInt last ∧ IsInt stride ∧ IsInt (last - first)
  stride_ne : stride ≠ 0

/-- `__first`, `__last` and `__stride` at the loop. -/
structure Loop where
  first : Int
  last : Int
  stride : Int

/-- The `k`th value of the loop variable. -/
def Loop.index (p : Loop) (k : Nat) : Int := p.first + k * p.stride

/-- The statements before the loop. -/
def Range.loop (r : Range) : Option Loop :=
  if r.first > r.last then (int (-r.stride)).map fun stride => ⟨r.last, r.first, stride⟩
  else some ⟨r.first, r.last, r.stride⟩

/-- The indices whose bodies the loop starts from `i` on; `none` if it overflows or has not ended
after `fuel` iterations. -/
def Loop.indices (p : Loop) : Nat → Int → Option (List Int)
  | 0, _ => none
  | fuel + 1, i =>
    if i ≤ p.last then (int (i + p.stride)).bind fun i' => (p.indices fuel i').map (i :: ·)
    else some []

/-- A `CCounter`, and how often the code after the `forall` was called. -/
structure CCounter where
  count : Nat
  after : Nat

/-- The `CCounter` of the loop. -/
def Loop.counter (p : Loop) : Option CCounter :=
  (int (p.last - p.first)).bind fun d =>
    (int (d.tdiv p.stride + 1)).map fun count => ⟨(count % 2 ^ 32).toNat, 0⟩

/-- A body ends, whichever it is. -/
def CCounter.endBody (c : CCounter) : CCounter :=
  let count := (c.count + (2 ^ 32 - 1)) % 2 ^ 32
  ⟨count, if count = 0 then c.after + 1 else c.after⟩

/-- The indices of the range: those a multiple of the stride away from the first bound, in its
direction, that do not pass the last one. -/
def Range.Wanted (r : Range) (x : Int) : Prop :=
  r.stride ∣ x - r.first ∧ if 0 < r.stride then r.first ≤ x ∧ x ≤ r.last
    else r.last ≤ x ∧ x ≤ r.first

/-- The loop ends, starts each index of the range once and no other, and the code after the `forall`
is called by the end of the last body, and by no other. An `int` has `2 ^ 32` values. -/
def Range.Right (r : Range) : Prop :=
  ∃ p c is, r.loop = some p ∧ p.counter = some c ∧ p.indices (2 ^ 32) p.first = some is ∧
    is.Nodup ∧ (∀ x, x ∈ is ↔ r.Wanted x) ∧
    ∀ k ≤ is.length, (CCounter.endBody^[k] c).after = if k = is.length then 1 else 0

/-- The loop counts upwards, and no `int` overflows. -/
def Loop.Upwards (p : Loop) : Prop :=
  0 < p.stride ∧ p.stride < 2 ^ 31 ∧ p.last - p.first < 2 ^ 31 ∧
    (p.last - p.first) / p.stride + 1 < 2 ^ 31 ∧
    p.first + ((p.last - p.first) / p.stride + 1) * p.stride < 2 ^ 31

/-- The range goes upwards, or downwards to its last bound. -/
def Range.Regular (r : Range) : Prop :=
  if r.first ≤ r.last then Loop.Upwards ⟨r.first, r.last, r.stride⟩
  else Loop.Upwards ⟨r.last, r.first, -r.stride⟩ ∧ r.stride ∣ r.last - r.first

theorem int_eq_some {x y : Int} : int x = some y ↔ IsInt x ∧ x = y := by
  rw [int, Option.ite_none_right_eq_some, Option.some_inj]

variable {r : Range} {p : Loop} {n : Nat}

/-- A loop that does not count upwards does not end. -/
theorem indices_of_nonpos (hstride : p.stride ≤ 0) (fuel : Nat) : ∀ i ≤ p.last,
    p.indices fuel i = none := by
  induction fuel with
  | zero => exact fun _ _ => rfl
  | succ fuel ih =>
    intro i hi
    rw [Loop.indices, if_pos hi, Option.bind_eq_none_iff]
    intro i' hi'
    rw [ih i' (by have := (int_eq_some.1 hi').2; omega), Option.map_none]

theorem Loop.index_succ (p : Loop) (k : Nat) : p.index (k + 1) = p.index k + p.stride := by
  rw [index, index, Nat.cast_succ, add_mul, one_mul, add_assoc]

/-- A loop upwards with `n` indices ends unless it overflows. -/
theorem indices_eq (hpos : 0 < p.stride) (hlt : ∀ k, p.index k ≤ p.last ↔ k < n) (m : Nat) :
    ∀ {k fuel : Nat}, k + m = n → m < fuel → IsInt (p.index k) → p.indices fuel (p.index k) =
      if p.index n < 2 ^ 31 then some ((range' k m).map p.index) else none := by
  induction m with
  | zero =>
    rintro k (_ | fuel) rfl hfuel hint
    · cases hfuel
    · rw [Loop.indices, if_neg fun hk => lt_irrefl _ ((hlt k).1 hk), add_zero, if_pos hint.2]
      rfl
  | succ m ih =>
    rintro k (_ | fuel) hk hfuel hint
    · cases hfuel
    · rw [Loop.indices, if_pos ((hlt k).2 (by omega)), ← p.index_succ, int]
      by_cases hnext : IsInt (p.index (k + 1))
      · rw [if_pos hnext, Option.bind_some, ih (by omega) (by omega) hnext]
        split <;> rfl
      · -- the indices grow
        have hmono : p.index (k + 1) ≤ p.index n :=
          Int.add_le_add_left (Int.mul_le_mul_of_nonneg_right (Int.ofNat_le.2 (by omega)) hpos.le) _
        have hup : p.index k ≤ p.index (k + 1) := by rw [p.index_succ]; omega
        rw [if_neg hnext, if_neg fun hn => hnext ⟨hint.1.trans hup, hmono.trans_lt hn⟩]
        rfl

theorem mem_indices (hpos : 0 < p.stride) (hlt : ∀ k, p.index k ≤ p.last ↔ k < n) {x : Int} :
    x ∈ (range' 0 n).map p.index ↔ p.stride ∣ x - p.first ∧ p.first ≤ x ∧ x ≤ p.last := by
  rw [mem_map]
  constructor
  · rintro ⟨k, hk, rfl⟩
    have := mul_nonneg (Int.natCast_nonneg k) hpos.le
    refine ⟨by simp [Loop.index], ?_, (hlt k).2 (by simpa using hk)⟩
    rw [Loop.index]
    omega
  · rintro ⟨⟨q, hq⟩, hfirst, hlast⟩
    obtain ⟨k, rfl⟩ :=
      Int.eq_ofNat_of_zero_le ((mul_nonneg_iff_of_pos_left hpos).1 (hq ▸ sub_nonneg.2 hfirst))
    have hx : p.index k = x := by rw [Loop.index, mul_comm, ← hq]; omega
    exact ⟨k, by simpa using (hlt k).1 (hx ▸ hlast), hx⟩

/-- The counter after `k` ends. -/
theorem iterate_endBody (hpos : 0 < n) (hn : n < 2 ^ 31) : ∀ k ≤ n,
    CCounter.endBody^[k] ⟨n, 0⟩ = ⟨n - k, if k = n then 1 else 0⟩ := by
  intro k
  induction k with
  | zero => exact fun _ => by rw [if_neg hpos.ne]; rfl
  | succ k ih =>
    intro hk
    rw [Function.iterate_succ_apply', ih (Nat.le_of_succ_le hk), CCounter.endBody]
    have hdec : (n - k + (2 ^ 32 - 1)) % 2 ^ 32 = n - (k + 1) := by omega
    have hiff : n - (k + 1) = 0 ↔ k + 1 = n := by omega
    simp only [hdec, hiff, if_neg (Nat.ne_of_lt hk)]

section Bounds

variable (hle : p.first ≤ p.last)

include hle

/-- The number of bodies of a loop upwards. -/
theorem exists_count (hpos : 0 < p.stride) : ∃ n : Nat,
    0 < n ∧ (p.last - p.first) / p.stride + 1 = n ∧ ∀ k, p.index k ≤ p.last ↔ k < n := by
  obtain ⟨q, hq⟩ := Int.eq_ofNat_of_zero_le (Int.ediv_nonneg (sub_nonneg.2 hle) hpos.le)
  refine ⟨q + 1, q.succ_pos, by rw [hq]; rfl, fun k => ?_⟩
  have := Int.le_ediv_iff_mul_le (a := k) (b := p.last - p.first) hpos
  rw [Loop.index]
  omega

theorem counter_eq_some {c : CCounter} (hn : (p.last - p.first) / p.stride + 1 = n) :
    p.counter = some c ↔ p.last - p.first < 2 ^ 31 ∧ (n : Int) < 2 ^ 31 ∧ c = ⟨n, 0⟩ := by
  have hdiv : (p.last - p.first).tdiv p.stride + 1 = n := by
    rw [Int.tdiv_eq_ediv_of_nonneg (sub_nonneg.2 hle), hn]
  simp only [Loop.counter, Option.bind_eq_some_iff, Option.map_eq_some_iff, int_eq_some, IsInt]
  constructor
  · rintro ⟨-, ⟨hd, rfl⟩, -, ⟨hc, rfl⟩, rfl⟩
    rw [hdiv] at hc ⊢
    exact ⟨hd.2, hc.2, by congr 1; omega⟩
  · rintro ⟨hd, hc, rfl⟩
    exact ⟨_, ⟨⟨by omega, hd⟩, rfl⟩, n, ⟨by omega, hdiv⟩, by congr 1; omega⟩

/-- The code is right exactly if its loop counts upwards without an overflow, on the indices of the
range. -/
theorem right_iff_of_loop (hloop : r.loop = some p) (hfirst : IsInt p.first)
    (hs : p.stride < 2 ^ 31) :
    r.Right ↔ p.Upwards ∧ ∀ x, p.stride ∣ x - p.first ∧ p.first ≤ x ∧ x ≤ p.last ↔ r.Wanted x := by
  by_cases hpos : 0 < p.stride
  · obtain ⟨n, hn0, hn, hlt⟩ := exists_count hle hpos
    have hmem := @mem_indices p n hpos hlt
    have hindices := fun h =>
      @indices_eq p n hpos hlt n 0 (2 ^ 32) (zero_add n) h (by simpa [Loop.index])
    rw [show p.index 0 = p.first by simp [Loop.index]] at hindices
    rw [Loop.Upwards, hn]
    constructor
    · rintro ⟨p, c, is, hp, hc, his, -, hwanted, -⟩
      cases hloop.symm.trans hp
      obtain ⟨hd, hn', rfl⟩ := (counter_eq_some hle hn).1 hc
      rw [hindices (by omega), Option.ite_none_right_eq_some] at his
      obtain ⟨hlast, his⟩ := his
      cases his
      exact ⟨⟨hpos, hs, hd, hn', hlast⟩, fun x => hmem.symm.trans (hwanted x)⟩
    · rintro ⟨⟨-, -, hd, hn', hlast⟩, hwanted⟩
      refine ⟨p, _, _, hloop, (counter_eq_some hle hn).2 ⟨hd, hn', rfl⟩, ?_, ?_,
        fun x => hmem.trans (hwanted x), ?_⟩
      · rw [hindices (by omega)]
        exact if_pos hlast
      · refine (nodup_range' (h := one_pos)).map fun j k hjk => ?_
        exact Int.ofNat.inj (Int.eq_of_mul_eq_mul_right hpos.ne' (add_left_cancel hjk))
      · rw [length_map, length_range']
        intro k hk
        rw [iterate_endBody hn0 (by omega) k hk]
  · refine iff_of_false ?_ fun h => hpos h.1.1
    rintro ⟨p, c, is, hp, -, his, -⟩
    cases hloop.symm.trans hp
    rw [indices_of_nonpos (not_lt.1 hpos) _ _ hle] at his
    cases his

end Bounds

/-- The `forall` is right exactly for the ranges upwards, and the ranges downwards to their last
bound, in which no `int` overflows. -/
theorem right_iff_regular (r : Range) : r.Right ↔ r.Regular := by
  obtain ⟨hfirst, hlast, hint, -⟩ := r.isInt
  rw [Range.Regular]
  split
  · next hle =>
    have hloop : r.loop = some ⟨r.first, r.last, r.stride⟩ := if_neg (not_lt.2 hle)
    rw [right_iff_of_loop hle hloop hfirst hint.2, and_iff_left_of_imp]
    intro h x
    rw [Range.Wanted, if_pos h.1]
  · next hle =>
    have hlt := not_le.1 hle
    by_cases hneg : IsInt (-r.stride)
    · have hloop : r.loop = some ⟨r.last, r.first, -r.stride⟩ := by
        rw [Range.loop, if_pos hlt, int, if_pos hneg]
        rfl
      rw [right_iff_of_loop hlt.le hloop hlast hneg.2]
      refine and_congr_right fun h => ?_
      have hpos : 0 < -r.stride := h.1
      simp only [Range.Wanted, if_neg (show ¬ 0 < r.stride by omega), Int.neg_dvd]
      constructor
      · exact fun hx => ((hx r.last).1 ⟨by simp, le_rfl, hlt.le⟩).1
      · refine fun hdvd x => and_congr_left fun _ => ?_
        rw [← sub_add_sub_cancel x r.last r.first, Int.dvd_add_left hdvd]
    · refine iff_of_false ?_ fun h => hneg ⟨by have := hint.2; omega, h.1.2.1⟩
      rintro ⟨p, c, is, hp, -⟩
      rw [Range.loop, if_pos hlt, int, if_neg hneg] at hp
      cases hp

/-- From 10 down to 0 by 3 the bodies of 0, 3, 6 and 9 are started, and not those of 10, 7, 4 and
1. -/
theorem forall_downwards_wrong : ∃ r : Range, r.first = 10 ∧ r.last = 0 ∧ r.stride = -3 ∧
    (r.loop.bind fun p => p.indices (2 ^ 32) p.first) = some [0, 3, 6, 9] ∧ ¬ r.Right := by
  have hstarted : Loop.indices ⟨0, 10, 3⟩ (2 ^ 32) 0 = some [0, 3, 6, 9] := by decide +kernel
  refine ⟨⟨10, 0, -3, by decide, by decide⟩, rfl, rfl, rfl, hstarted, ?_⟩
  rintro ⟨p, c, is, hp, -, his, -, hwanted, -⟩
  cases hp
  cases hstarted.symm.trans his
  exact absurd ((hwanted 0).1 (by decide)).1 (by decide)

end CharmRuntime.Sdag
