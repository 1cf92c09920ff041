import Mathlib.Data.Nat.Basic

/-!
# Binary search with halving steps

A search over the indices `0 .. n - 1` starts in the middle and moves to the left or to the right by
an increment that is halved after every move and never falls below one (`search`). A direction
function says at every index whether to stop, to go left or to go right.

If the indices at which the search may stop form a non-empty interval, with `right` before and
`left` after it (`Guides`), the search stops in that interval (`search_spec`). While the increment
is at least two the moves stay inside the index range because the increment is less than half of
what is left on either side (`Room`); after that the search advances by single steps towards the
interval.
-/

set_option autoImplicit false

namespace CharmRuntime.Lib.BinarySearch

/-- What the search does at an index. -/
inductive Move where
  | here | left | right
  deriving DecidableEq

/-- `if ((inc = inc >> 1) == 0) inc = 1`. -/
def halve (inc : Nat) : Nat := if inc / 2 = 0 then 1 else inc / 2

/-- The loop of the search; `fuel` bounds the number of moves. -/
def loop (dir : Nat → Move) : Nat → Nat → Nat → Option Nat
  | 0, _, _ => none
  | fuel + 1, index, inc =>
    match dir index with
    | .here => some index
    | .left => loop dir fuel (index - inc) (halve inc)
    | .right => loop dir fuel (index + inc) (halve inc)

/-- The search over `n` indices. -/
def search (dir : Nat → Move) (n : Nat) : Option Nat :=
  loop dir (2 * n + 4) (n / 2) (n / 2 / 2 + n % 2)

/-- The search stops exactly in the interval from `lo` to `hi`, and elsewhere moves towards it. -/
structure Guides (dir : Nat → Move) (n lo hi : Nat) : Prop where
  le : lo ≤ hi
  lt : hi < n
  here : ∀ i, lo ≤ i → i ≤ hi → dir i = .here
  right : ∀ i, i < lo → dir i = .right
  left : ∀ i, hi < i → i < n → dir i = .left

/-- The increment leaves room on both sides of the index. -/
def Room (n index inc : Nat) : Prop :=
  index < n ∧ (2 ≤ inc → 2 * inc ≤ index + 2 ∧ index + 2 * inc ≤ n + 1)

theorem halve_le {inc : Nat} (h : 2 ≤ inc) : halve inc + 1 ≤ inc := by
  simp only [halve]
  split <;> omega

theorem halve_small {inc : Nat} (h : inc < 2) : halve inc = 1 := by
  simp only [halve]
  split <;> omega

theorem two_mul_halve {inc : Nat} (h : 2 ≤ halve inc) : 2 * halve inc ≤ inc := by
  simp only [halve] at h ⊢
  split at h <;> split <;> omega

section

variable {dir : Nat → Move} {n lo hi : Nat}

variable (h : Guides dir n lo hi)

include h

theorem Guides.congr {dir' : Nat → Move}
    (heq : ∀ i, i < n → dir' i = dir i) : Guides dir' n lo hi := by
  have hle := h.le
  have hlt := h.lt
  refine ⟨hle, hlt, fun i h1 h2 => ?_, fun i h1 => ?_, fun i h1 h2 => ?_⟩
  · rw [heq i (by omega), h.here i h1 h2]
  · rw [heq i (by omega), h.right i h1]
  · rw [heq i h2, h.left i h1 h2]

section

omit h

variable {index inc : Nat}

/-- A move to the left leaves room for the next one. -/
theorem Room.left (h : Room n index inc) : Room n (index - inc) (halve inc) := by
  obtain ⟨hindex, hroom⟩ := h
  refine ⟨by omega, fun h2 => ?_⟩
  have := two_mul_halve h2
  omega

theorem Room.right (h : Room n index inc) (hlt : index + 1 < n) :
    Room n (index + inc) (halve inc) := by
  obtain ⟨hindex, hroom⟩ := h
  refine ⟨by omega, fun h2 => ?_⟩
  have := two_mul_halve h2
  omega

end

/-- With an increment below two the search advances by single steps. -/
theorem loop_spec : ∀ fuel index inc, Room n index inc →
      (inc + n + 2 ≤ fuel ∨ inc < 2 ∧ lo - index + (index - hi) + 2 ≤ fuel + inc) →
      ∃ i, loop dir fuel index inc = some i ∧ lo ≤ i ∧ i ≤ hi := by
  have hle := h.le
  have hlt := h.lt
  intro fuel
  induction fuel with
  | zero =>
    intro index inc _ hfuel
    omega
  | succ fuel ih =>
    intro index inc hroom hfuel
    have hindex := hroom.1
    have hhalve : 2 ≤ inc ∧ halve inc + 1 ≤ inc ∨ inc < 2 ∧ halve inc = 1 := by
      rcases lt_or_ge inc 2 with h2 | h2
      · exact .inr ⟨h2, halve_small h2⟩
      · exact .inl ⟨h2, halve_le h2⟩
    rcases lt_or_ge index lo with hlo | hlo
    · rw [loop, h.right index hlo]
      exact ih _ _ (hroom.right (by omega)) (by omega)
    · rcases lt_or_ge hi index with hhi | hhi
      · rw [loop, h.left index hhi hindex]
        exact ih _ _ hroom.left (by omega)
      · rw [loop, h.here index hlo hhi]
        exact ⟨index, rfl, hlo, hhi⟩

/-- The search stops in the interval. -/
theorem search_spec : ∃ i, search dir n = some i ∧ lo ≤ i ∧ i ≤ hi := by
  have hlt := h.lt
  refine loop_spec h _ _ _ ⟨by omega, fun h2 => ?_⟩ (.inl ?_)
  · omega
  · omega

end

end CharmRuntime.Lib.BinarySearch
