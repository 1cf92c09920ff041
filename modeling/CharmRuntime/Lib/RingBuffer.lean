import Mathlib.Data.List.Basic
import Mathlib.Data.Nat.ModEq

/-!
# Circular buffers

A circular buffer is a memory `cells` read at the indices `0, …, size - 1`, with a `head` (first
used cell) and a `tail` (next free cell). `Holds cells size head tail l` says that the cells from
`head` on, wrapping at `size`, hold the list `l`. The list may fill the buffer completely; then
`head = tail`, so a buffer that has to tell full from empty keeps `l.length < size`.

The lemmas give the effect of the four operations: append at the tail, prepend at the head, remove
at the head, and copy into a larger memory starting at index `0`. `contents` reads the list back.
-/

set_option autoImplicit false

namespace CharmRuntime.Lib.RingBuffer

open List Function
open Nat (mod_eq_of_lt mod_lt)

universe u

variable {α : Type u}

/-- The cells from `head` on, wrapping at `size`, hold `l`, and `tail` is the cell after them. -/
structure Holds (cells : Nat → Option α) (size head tail : Nat) (l : List α) : Prop where
  length_le : l.length ≤ size
  head_lt : head < size
  tail_eq : tail = (head + l.length) % size
  cell : ∀ i x, l[i]? = some x → cells ((head + i) % size) = some x

/-- The list read from the cells between `head` and `tail`. -/
def contents (cells : Nat → Option α) (size head tail : Nat) : List α :=
  (List.range ((tail + size - head) % size)).filterMap fun i => cells ((head + i) % size)

/-- Two offsets below the size that reach the same cell are equal. -/
theorem offset_inj {size head i j : Nat} (hi : i < size) (hj : j < size)
    (h : (head + i) % size = (head + j) % size) : i = j := by
  have h' : i % size = j % size := Nat.ModEq.add_left_cancel' head h
  rwa [mod_eq_of_lt hi, mod_eq_of_lt hj] at h'

theorem filterMap_getElem?_range (l : List α) :
    (List.range l.length).filterMap (fun i => l[i]?) = l := by
  induction l with
  | nil => rfl
  | cons a l ih =>
    rw [length_cons, range_succ_eq_map, filterMap_cons]
    simp only [getElem?_cons_zero, filterMap_map]
    congr 1

section

variable {cells : Nat → Option α} {size head tail : Nat} {l : List α}

variable (h : Holds cells size head tail l)

include h

theorem Holds.size_pos : 0 < size :=
  Nat.lt_of_le_of_lt (Nat.zero_le _) h.head_lt

theorem Holds.tail_lt : tail < size := by
  rw [h.tail_eq]
  exact mod_lt _ h.size_pos

omit h in
theorem holds_nil (h : head < size) : Holds cells size head head ([] : List α) := by
  refine ⟨Nat.zero_le _, h, ?_, ?_⟩
  · simp [mod_eq_of_lt h]
  · intro i x hx
    simp at hx

/-- In a buffer that is not full, `head = tail` is the test for empty. -/
theorem Holds.head_eq_tail_iff (hlt : l.length < size) : head = tail ↔ l = [] := by
  constructor
  · intro he
    have h0 : (head + 0) % size = (head + l.length) % size := by
      rw [← h.tail_eq, ← he, add_zero, mod_eq_of_lt h.head_lt]
    exact length_eq_zero_iff.1 (offset_inj h.size_pos hlt h0).symm
  · rintro rfl
    have := h.tail_eq
    simpa [mod_eq_of_lt h.head_lt] using this.symm

/-- In a buffer that has a list, `head = tail` is the test for full. -/
theorem Holds.tail_eq_head_iff (hne : l ≠ []) : tail = head ↔ l.length = size := by
  constructor
  · intro he
    by_contra hlt
    exact hne ((h.head_eq_tail_iff (Nat.lt_of_le_of_ne h.length_le hlt)).1 he.symm)
  · intro he
    rw [h.tail_eq, he, Nat.add_mod_right, mod_eq_of_lt h.head_lt]

/-- Writing at the tail appends. -/
theorem Holds.append (hlt : l.length < size) (x : α) :
    Holds (update cells tail (some x)) size head ((tail + 1) % size) (l ++ [x]) := by
  refine ⟨?_, h.head_lt, ?_, ?_⟩
  · simpa using Nat.succ_le_of_lt hlt
  · rw [h.tail_eq]
    simp [add_assoc]
  · intro i y hy
    rw [getElem?_append] at hy
    by_cases hi : i < l.length
    · rw [if_pos hi] at hy
      rw [update_of_ne, h.cell i y hy]
      intro he
      rw [h.tail_eq] at he
      have := offset_inj (by omega) hlt he
      omega
    · rw [if_neg hi] at hy
      have h0 : i - l.length = 0 := by
        by_contra hne
        rw [getElem?_eq_none (by simp; omega)] at hy
        cases hy
      have hi' : i = l.length := by omega
      rw [h0] at hy
      simp only [getElem?_cons_zero, Option.some.injEq] at hy
      rw [hi', ← h.tail_eq, update_self, hy]

/-- Writing before the head prepends. -/
theorem Holds.prepend (hlt : l.length < size) (x : α)
    {head' : Nat} (hh : head' < size) (hn : (head' + 1) % size = head) :
    Holds (update cells head' (some x)) size head' tail (x :: l) := by
  have hshift : ∀ i, (head' + (i + 1)) % size = (head + i) % size := by
    intro i
    rw [← hn, Nat.mod_add_mod]
    congr 1
    omega
  refine ⟨?_, hh, ?_, ?_⟩
  · simpa using Nat.succ_le_of_lt hlt
  · rw [h.tail_eq, length_cons, hshift]
  · intro i y hy
    cases i with
    | zero =>
      simp only [getElem?_cons_zero, Option.some.injEq] at hy
      rw [add_zero, mod_eq_of_lt hh, update_self, hy]
    | succ i =>
      simp only [getElem?_cons_succ] at hy
      have hi : i < l.length := (List.getElem?_eq_some_iff.1 hy).1
      rw [update_of_ne, hshift, h.cell i y hy]
      intro he
      have h0 : (head' + (i + 1)) % size = (head' + 0) % size := by
        rw [he, add_zero, mod_eq_of_lt hh]
      have := offset_inj (by omega) (by omega) h0
      omega

omit h in
/-- The head cell holds the first element, and advancing the head removes it. -/
theorem Holds.removeHead {x : α} (h : Holds cells size head tail (x :: l)) :
    cells head = some x ∧ Holds cells size ((head + 1) % size) tail l := by
  have hlen := h.length_le
  rw [length_cons] at hlen
  have hshift : ∀ i, ((head + 1) % size + i) % size = (head + (i + 1)) % size := by
    intro i
    rw [Nat.mod_add_mod]
    congr 1
    omega
  refine ⟨?_, by omega, mod_lt _ h.size_pos, ?_, ?_⟩
  · have := h.cell 0 x rfl
    rwa [add_zero, mod_eq_of_lt h.head_lt] at this
  · rw [hshift, h.tail_eq, length_cons]
  · intro i y hy
    rw [hshift]
    exact h.cell (i + 1) y (by simpa using hy)

/-- A memory that lists the used cells from index `0` on holds the same list. -/
theorem Holds.relocate {cells' : Nat → Option α} {size' : Nat}
    (hlt : l.length < size') (hcopy : ∀ i, i < l.length → cells' i = cells ((head + i) % size)) :
    Holds cells' size' 0 l.length l := by
  refine ⟨by omega, by omega, ?_, ?_⟩
  · rw [zero_add, mod_eq_of_lt hlt]
  · intro i x hx
    have hi : i < l.length := (List.getElem?_eq_some_iff.1 hx).1
    rw [zero_add, mod_eq_of_lt (by omega), hcopy i hi]
    exact h.cell i x hx

/-- Reading a buffer that is not full gives its list back. -/
theorem Holds.contents_eq (hlt : l.length < size) : contents cells size head tail = l := by
  have hcount : (tail + size - head) % size = l.length := by
    have hh := h.head_lt
    rw [h.tail_eq]
    by_cases hw : head + l.length < size
    · rw [mod_eq_of_lt hw, show head + l.length + size - head = l.length + size by omega,
        Nat.add_mod_right, mod_eq_of_lt hlt]
    · have hm : (head + l.length) % size = head + l.length - size := by
        rw [Nat.mod_eq_sub_mod (by omega), mod_eq_of_lt (by omega)]
      rw [hm, show head + l.length - size + size - head = l.length by omega, mod_eq_of_lt hlt]
  unfold contents
  rw [hcount]
  refine Eq.trans (filterMap_congr fun i hi => ?_) (filterMap_getElem?_range l)
  rw [mem_range] at hi
  rw [h.cell i l[i] (getElem?_eq_getElem hi), getElem?_eq_getElem hi]

end

end CharmRuntime.Lib.RingBuffer
