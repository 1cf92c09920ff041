import CharmRuntime.Lib.SwapHeap

/-!
# One-based binary heaps with a moving hole

A heap is a function from positions to entries; the positions in use are `1, …, n - 1`, and the
parent of position `i` is `i / 2`. The two loops `siftUp` and `siftDown` carry an entry `pe` in a
hole: entries are shifted into the hole until `pe` fits, and only then is `pe` written.

The comparison is a Boolean `gt` that decides `key b < key a` for keys in a linear order. With `pe`
in the hole, a step of a loop is an exchange. Two facts are proved of each loop: the entries in use
are the same multiset (`slots_siftUp`, `slots_siftDown`), and the result is ordered
(`ordered_siftUp`, `ordered_siftDown`) when the start is out of order at the hole only.
-/

set_option autoImplicit false

namespace CharmRuntime.Lib.BinaryHeap

open Function SwapHeap
open Finset (Ico mem_Ico)

universe u v

variable {ι : Type u} {κ : Type v}

/-- The multiset of the entries at positions `1, …, n - 1`. -/
def slots (heap : Nat → ι) (n : Nat) : Multiset ι :=
  (Ico 1 n).val.map heap

/-- Move the hole from `pos` towards the root while `pe` is not greater than the parent of the
hole, then write `pe`. -/
def siftUp (gt : ι → ι → Bool) (pe : ι) (heap : Nat → ι) (pos : Nat) : Nat → ι :=
  if 1 < pos then
    if gt pe (heap (pos / 2)) then update heap pos pe
    else siftUp gt pe (update heap pos (heap (pos / 2))) (pos / 2)
  else update heap pos pe
termination_by pos

/-- The child of `pos` that `siftDown` compares with: the only child, or the right one when the
left one is greater. -/
def lesserChild (gt : ι → ι → Bool) (heap : Nat → ι) (n pos : Nat) : Nat :=
  if 2 * pos + 1 < n then
    if gt (heap (2 * pos)) (heap (2 * pos + 1)) then 2 * pos + 1 else 2 * pos
  else 2 * pos

theorem lesserChild_cases (gt : ι → ι → Bool) (heap : Nat → ι) (n pos : Nat) :
    lesserChild gt heap n pos = 2 * pos ∨
      (lesserChild gt heap n pos = 2 * pos + 1 ∧ 2 * pos + 1 < n) := by
  unfold lesserChild
  split
  · split
    · exact .inr ⟨rfl, by assumption⟩
    · exact .inl rfl
  · exact .inl rfl

/-- Move the hole from `pos` away from the root while its lesser child is not greater than `pe`,
then write `pe`. Positions start at `1`. -/
def siftDown (gt : ι → ι → Bool) (pe : ι) (n : Nat) (heap : Nat → ι) (pos : Nat) : Nat → ι :=
  if 0 < pos ∧ 2 * pos < n then
    if gt (heap (lesserChild gt heap n pos)) pe then update heap pos pe
    else siftDown gt pe n (update heap pos (heap (lesserChild gt heap n pos)))
      (lesserChild gt heap n pos)
  else update heap pos pe
termination_by n - pos
decreasing_by
  have := lesserChild_cases gt heap n pos
  omega

/-! ## The entries in use -/

variable {n pos : Nat}

theorem mem_slots {heap : Nat → ι} {x : ι} : x ∈ slots heap n ↔ ∃ i,
    1 ≤ i ∧ i < n ∧ heap i = x := by
  simp [slots, and_assoc]

section

variable (gt : ι → ι → Bool) (pe : ι) (heap : Nat → ι)

include gt pe heap

theorem slots_siftUp (h1 : 1 ≤ pos) (hn : pos < n) :
    slots (siftUp gt pe heap pos) n = slots (update heap pos pe) n := by
  fun_induction siftUp gt pe heap pos with
  | case1 => rfl
  | case2 heap pos hpos hgt ih =>
    rw [ih (by omega) (by omega), shift_eq_swap]
    exact entries_swap _ (mem_Ico.2 (by omega)) (mem_Ico.2 (by omega))
  | case3 => rfl

theorem slots_siftDown (h1 : 1 ≤ pos) (hn : pos < n) :
    slots (siftDown gt pe n heap pos) n = slots (update heap pos pe) n := by
  fun_induction siftDown gt pe n heap pos with
  | case1 => rfl
  | case2 heap pos hpos hgt ih =>
    have hc := lesserChild_cases gt heap n pos
    rw [ih (by omega) (by omega), shift_eq_swap]
    exact entries_swap _ (mem_Ico.2 (by omega)) (mem_Ico.2 (by omega))
  | case3 => rfl

/-- Sifting a new entry up from the first free position adds it. -/
theorem slots_push (hn : 1 ≤ n) : slots (siftUp gt pe heap n) (n + 1) = pe ::ₘ slots heap n := by
  rw [slots_siftUp gt pe heap hn (Nat.lt_succ_self n), slots, Nat.Ico_succ_right_eq_insert_Ico hn]
  exact entries_push heap pe (by simp)

end

/-- Sifting the last entry down from the root removes the root. -/
theorem slots_popRoot (gt : ι → ι → Bool) (heap : Nat → ι) (hn : 1 ≤ n) :
    slots heap (n + 1) = heap 1 ::ₘ slots (siftDown gt (heap n) n heap 1) n := by
  have hpop : slots heap (n + 1) = heap 1 ::ₘ slots (update heap 1 (heap n)) n := by
    rw [slots, Nat.Ico_succ_right_eq_insert_Ico hn]
    refine entries_pop heap (by simp) ?_
    rw [← Nat.Ico_succ_right_eq_insert_Ico hn]
    exact mem_Ico.2 (by omega)
  by_cases h1 : n = 1
  · subst h1
    rfl
  · rw [hpop, slots_siftDown gt (heap n) heap le_rfl (by omega)]

/-! ## The order -/

section Order

variable [LinearOrder κ] (key : ι → κ)

/-- Every entry in use has a key that is at least its parent's. -/
def Ordered (heap : Nat → ι) (n : Nat) : Prop :=
  ∀ i, 2 ≤ i → i < n → key (heap (i / 2)) ≤ key (heap i)

/-- Position `c` is in use and not the root, and `p` is its parent. -/
abbrev Child (n p c : Nat) : Prop := 2 ≤ c ∧ c < n ∧ c / 2 = p

theorem tree (n : Nat) : Tree (Child n) := ⟨by omega, by omega⟩

variable {key} {heap : Nat → ι} {gt : ι → ι → Bool} {pe : ι}

theorem ordered_iff : Ordered key heap n ↔ SwapHeap.Ordered (Child n) key heap := by
  constructor
  · rintro h _ c ⟨h2, hn, rfl⟩
    exact h c h2 hn
  · exact fun h i h2 hi => h _ i ⟨h2, hi, rfl⟩

/-- The root has a minimal key. -/
theorem Ordered.root_le (h : Ordered key heap n) : ∀ i, 1 ≤ i → i < n →
    key (heap 1) ≤ key (heap i) := by
  refine fun i h1 hi => SwapHeap.Ordered.root_le (tree n) (ordered_iff.1 h) (U := Ico 1 n)
    (fun i hi hne => ⟨i / 2, ?_⟩) i (mem_Ico.2 ⟨h1, hi⟩)
  rw [mem_Ico] at *
  omega

section Loops

variable (hgt : ∀ a b, gt a b = true ↔ key b < key a)

include hgt

/-- `siftUp` ends with an ordered heap. -/
theorem ordered_siftUp (pe : ι) (heap : Nat → ι) (pos : Nat) (hn : pos < n)
    (h : OrderedBut (Child n) key (update heap pos pe) pos)
    (hbelow : ∀ c, Child n pos c → key (update heap pos pe pos) ≤ key (update heap pos pe c)) :
    Ordered key (siftUp gt pe heap pos) n := by
  fun_induction siftUp gt pe heap pos with
  | case1 heap pos hpos hg =>
    refine ordered_iff.2 (h.ordered (fun p hp => ?_) hbelow)
    rw [← hp.2.2, update_self, update_of_ne (by omega)]
    exact ((hgt _ _).1 hg).le
  | case2 heap pos hpos hg ih =>
    obtain ⟨hup, hbelow'⟩ := h.up (tree n) (p := pos / 2) (by omega) (by
      rw [update_self, update_of_ne (by omega)]
      exact not_lt.1 fun hlt => hg ((hgt _ _).2 hlt))
    rw [← shift_eq_swap] at hup hbelow'
    exact ih (by omega) hup hbelow'
  | case3 heap pos hpos =>
    exact ordered_iff.2 (h.ordered (fun p hp => by omega) hbelow)

/-- An entry whose key is at most every key on the way up ends at the root. -/
theorem siftUp_root (heap : Nat → ι) (h1 : 1 ≤ pos)
    (hmin : ∀ i, 1 ≤ i → i < pos → key pe ≤ key (heap i)) : siftUp gt pe heap pos 1 = pe := by
  fun_induction siftUp gt pe heap pos with
  | case1 heap pos hpos hg =>
    exact absurd ((hgt _ _).1 hg) (not_lt.2 (hmin (pos / 2) (by omega) (by omega)))
  | case2 heap pos hpos hg ih =>
    refine ih (by omega) fun i hi hlt => ?_
    rw [update_of_ne (by omega)]
    exact hmin i hi (by omega)
  | case3 heap pos hpos =>
    have hp : pos = 1 := by omega
    rw [hp, update_self]

theorem lesserChild_le (heap : Nat → ι) (n pos : Nat) :
    ∀ i, Child n pos i → key (heap (lesserChild gt heap n pos)) ≤ key (heap i) := by
  intro i hi
  have hi2 : i = 2 * pos ∨ i = 2 * pos + 1 := by omega
  unfold lesserChild
  by_cases hr : 2 * pos + 1 < n
  · rw [if_pos hr]
    by_cases hg : gt (heap (2 * pos)) (heap (2 * pos + 1)) = true
    · rw [if_pos hg]
      rcases hi2 with rfl | rfl
      · exact ((hgt _ _).1 hg).le
      · exact le_rfl
    · rw [if_neg hg]
      rcases hi2 with rfl | rfl
      · exact le_rfl
      · exact not_lt.1 fun hlt => hg ((hgt _ _).2 hlt)
  · rw [if_neg hr]
    obtain rfl : i = 2 * pos := by omega
    exact le_rfl

/-- `siftDown` ends with an ordered heap. -/
theorem ordered_siftDown (pe : ι) (heap : Nat → ι) (pos : Nat) (h0 : 0 < pos)
    (h : OrderedBut (Child n) key (update heap pos pe) pos)
    (habove : ∀ p, Child n p pos → key (update heap pos pe p) ≤ key (update heap pos pe pos)) :
    Ordered key (siftDown gt pe n heap pos) n := by
  fun_induction siftDown gt pe n heap pos with
  | case1 heap pos hpos hg =>
    refine ordered_iff.2 (h.ordered habove fun c hc => ?_)
    rw [update_self, update_of_ne (by omega)]
    exact ((hgt _ _).1 hg).le.trans (lesserChild_le hgt heap n pos c hc)
  | case2 heap pos hpos hg ih =>
    have hc := lesserChild_cases gt heap n pos
    have hmin := lesserChild_le hgt heap n pos
    generalize lesserChild gt heap n pos = c at *
    obtain ⟨hdown, habove'⟩ := h.down (tree n) (c := c) (by omega) (fun d hd => by
      rw [update_of_ne (by omega), update_of_ne (by omega)]
      exact hmin d hd) (by
      rw [update_self, update_of_ne (by omega)]
      exact not_lt.1 fun hlt => hg ((hgt _ _).2 hlt))
    rw [← shift_eq_swap] at hdown habove'
    exact ih (by omega) hdown habove'
  | case3 heap pos hpos =>
    exact ordered_iff.2 (h.ordered habove fun c hc => by omega)

theorem ordered_push (pe : ι) (h : Ordered key heap n) :
    Ordered key (siftUp gt pe heap n) (n + 1) := by
  have hbut : OrderedBut (Child (n + 1)) key heap n :=
    ⟨fun p c hc _ hne => ordered_iff.1 h p c (by omega), fun p c _ hc => by omega⟩
  exact ordered_siftUp hgt pe heap n (Nat.lt_succ_self n) (hbut.write (tree _) _) fun c hc => by
    omega

theorem ordered_popRoot (h : Ordered key heap (n + 1)) :
    Ordered key (siftDown gt (heap n) n heap 1) n := by
  have hbut : OrderedBut (Child n) key heap 1 :=
    ⟨fun p c hc _ _ => ordered_iff.1 h p c (by omega), fun p c hp => by omega⟩
  exact ordered_siftDown hgt (heap n) heap 1 one_pos (hbut.write (tree _) _) fun p hp => by omega

end Loops

/-- Order is a property of the keys of the entries in use. -/
theorem Ordered.congr {key' : ι → κ} (h : Ordered key heap n)
    (hk : ∀ x ∈ slots heap n, key' x = key x) : Ordered key' heap n := by
  intro i h2 hi
  rw [hk _ (mem_slots.2 ⟨i / 2, by omega, by omega, rfl⟩),
    hk _ (mem_slots.2 ⟨i, by omega, hi, rfl⟩)]
  exact h i h2 hi

end Order

end CharmRuntime.Lib.BinaryHeap
