import Mathlib.Algebra.Order.BigOperators.Group.Finset
import Mathlib.Data.Nat.ModEq

/-!
# Tables

What a lookup finds after an entry of a table was written or erased, and how a sum over the entries
changes with one of them. Fewer than `W` consecutive numbers have different residues modulo `W`, so
a table of `W` slots indexed by the residue holds a window of numbers without collisions
(`eq_of_mod_eq`).
-/

set_option autoImplicit false

namespace CharmRuntime.Lib

section Lookups

open Function Option

variable {α β : Type} [DecidableEq α] {f : α → Option β} {a b : α} {v r : β}

/-- What a lookup finds after an entry was written. -/
theorem update_some_cases (h : update f a (some v) b = some r) :
    b = a ∧ r = v ∨ b ≠ a ∧ f b = some r := by
  by_cases hb : b = a
  · rw [hb, update_self] at h
    exact .inl ⟨hb, (some.inj h).symm⟩
  · rw [update_of_ne hb] at h
    exact .inr ⟨hb, h⟩

/-- What a lookup finds after an entry was erased. -/
theorem update_none_cases (h : update f a none b = some r) : b ≠ a ∧ f b = some r := by
  by_cases hb : b = a
  · rw [hb, update_self] at h
    cases h
  · rw [update_of_ne hb] at h
    exact ⟨hb, h⟩

/-- A free entry is written: the others are still found. -/
theorem update_of_free (ha : f a = none) (h : f b = some r) : update f a (some v) b = some r := by
  rw [update_of_ne, h]
  rintro rfl
  rw [ha] at h
  cases h

theorem update_self_ne_none : update f a (some v) a ≠ none := by
  rw [update_self]
  exact some_ne_none _

theorem update_ne_none (h : f b ≠ none) : update f a (some v) b ≠ none := by
  by_cases hb : b = a
  · rw [hb]
    exact update_self_ne_none
  · rwa [update_of_ne hb]

end Lookups

section Sums

open Finset

variable {ι : Type} {s : Finset ι} {a : ι} {M : Type} [AddCommMonoid M] {f g : ι → M}

section

variable (ha : a ∈ s) (h : ∀ b ∈ s, b ≠ a → g b = f b)

include ha h

/-- Two sums that differ in one term. -/
theorem sum_add_of_eq_off [DecidableEq ι] :
    ∑ b ∈ s, g b + f a = ∑ b ∈ s, f b + g a := by
  rw [← add_sum_erase s g ha, ← add_sum_erase s f ha,
    sum_congr rfl fun b hb => h b (mem_of_mem_erase hb) (ne_of_mem_erase hb), add_right_comm,
    add_comm (g a), add_right_comm]

/-- One of the terms of a sum grows. -/
theorem sum_eq_add_of_eq_off [DecidableEq ι] {k : M}
    (hk : g a = f a + k) : ∑ b ∈ s, g b = ∑ b ∈ s, f b + k := by
  rw [← add_sum_erase s g ha, ← add_sum_erase s f ha, hk,
    sum_congr rfl fun b hb => h b (mem_of_mem_erase hb) (ne_of_mem_erase hb), add_right_comm]

end

/-- Terms between those of two equal sums are equal to them. -/
theorem eq_of_sum_le_sum [PartialOrder M] [IsOrderedCancelAddMonoid M]
    (hle : ∀ b ∈ s, f b ≤ g b) (hsum : ∑ b ∈ s, g b ≤ ∑ b ∈ s, f b) : ∀ b ∈ s, f b = g b :=
  (sum_eq_sum_iff_of_le hle).1 (le_antisymm (sum_le_sum hle) hsum)

end Sums

section Residues

variable {W a b : Nat}

/-- Numbers that are less than `W` apart are determined by their residue. -/
theorem eq_of_mod_eq (hmod : a % W = b % W) (hab : a < b + W) (hba : b < a + W) : a = b :=
  Nat.ModEq.eq_of_abs_lt hmod (abs_lt.2 ⟨by omega, by omega⟩)

/-- The slot before that of `a + 1`. -/
theorem slot_pred (hW : 0 < W) (a : Nat) :
    (if (a + 1) % W = 0 then W - 1 else (a + 1) % W - 1) = a % W := by
  have hlt := Nat.mod_lt a hW
  rw [← Nat.mod_add_mod]
  by_cases hlast : a % W + 1 = W
  · rw [hlast, Nat.mod_self, if_pos rfl]
    omega
  · rw [Nat.mod_eq_of_lt (by omega), if_neg (by omega), Nat.add_sub_cancel]

end Residues

end CharmRuntime.Lib
